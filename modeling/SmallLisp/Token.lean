import SmallLisp.Text.Location

/-!
# Tokens

What a text is cut into, and what can be wrong with a piece of it.
-/
namespace SmallLisp

inductive Token.Kind where
  | opening
  | closing
  | symbol (name : String)
  | integer (value : Nat)
  | text (contents : String)
  | eof
deriving DecidableEq

/-- A token and the place of its first character. -/
structure Token where
  kind : Token.Kind
  location : Location
deriving DecidableEq

inductive LexError.Cause where
  | unexpectedCharacter (c : Char)
  | unterminatedText
  | unknownEscape
  | integerTooLarge
deriving DecidableEq

/-- Malformed token text, blamed on the place where the token starts. -/
structure LexError where
  cause : LexError.Cause
  location : Location
deriving DecidableEq

def LexError.Cause.message : LexError.Cause → String
  | .unexpectedCharacter c => "unexpected character '" ++ String.singleton c ++ "'"
  | .unterminatedText => "unexpected EOF when parsing string"
  | .unknownEscape => "unknown escaped character"
  | .integerTooLarge => "number too large to fit in target type"

def LexError.message (e : LexError) : String := e.cause.message

/-- A lexical error on a line of its own. -/
def LexError.describe (location : Location) (message : String) : String :=
  "Lexical error at line " ++ toString location.row ++ " column " ++ toString location.col
    ++ ": " ++ message

def LexError.text (e : LexError) : String := describe e.location e.message

end SmallLisp
