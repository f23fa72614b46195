import SmallLisp.Token
import SmallLisp.Text.Quoted

/-! # Tokens as text, for looking at -/
namespace SmallLisp

/-- The kind of a token and its value in parentheses, if it has one. -/
def Token.Kind.inspect : Token.Kind → String
  | opening => "LParen"
  | closing => "RParen"
  | symbol name => "Identifier(" ++ Quoted.quote name ++ ")"
  | integer value => "IntegerLiteral(" ++ toString value ++ ")"
  | text contents => "StringLiteral(" ++ Quoted.quote contents ++ ")"
  | eof => "EOF"

def Token.inspect (t : Token) : String := t.kind.inspect ++ "@" ++ t.location.text

end SmallLisp
