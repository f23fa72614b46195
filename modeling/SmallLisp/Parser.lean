import SmallLisp.Expr
import SmallLisp.Token.Scanner

/-!
# The parser

Reads expressions off a scanner with one token of look-ahead. The forms that are still open stand on
a stack, so one token is one step: it is consumed and the next one requested, or it is refused.
-/
namespace SmallLisp

inductive ParseError.Cause where
  | expectedExpression
  | expectedSymbol
  | expectedInteger
  | expectedText
  | expectedForm
  | unclosedCall
  | unclosedDefine
deriving DecidableEq

def ParseError.Cause.message : ParseError.Cause → String
  | expectedExpression => "unexpected token when parsing expression"
  | expectedSymbol => "unexpected token when parsing identifier"
  | expectedInteger => "unexpected token when parsing integer"
  | expectedText => "unexpected token when parsing string"
  | expectedForm => "unexpected token when parsing call-like expression"
  | unclosedCall => "expecting ')' at the end of call expression"
  | unclosedDefine => "expecting ')' at the end of define expression"

inductive ParseError where
  /-- A token that cannot stand where it does. -/
  | refused (cause : ParseError.Cause) (location : Location)
  /-- The token requested next is malformed. -/
  | malformed (error : LexError)
  /-- More than `Parser.maxNesting` forms are open. -/
  | tooDeep
  /-- No token has been requested yet. -/
  | notStarted
deriving DecidableEq

/-- A scanner and the token to decide on. After an error that token is still there. -/
structure Parser where
  scanner : Scanner
  current : Option Token
deriving DecidableEq

namespace Parser

/-- How many forms may be open at once. -/
def maxNesting : Nat := 490

/-- The word that makes a form a definition. -/
def defineWord : String := "define"

/-- A form that waits for one of its expressions. -/
inductive Waiting where
  /-- For whatever comes first in it. -/
  | head (location : Location)
  | value (location : Location) (target : Symbol)
  /-- For an argument or its end; `arguments` holds the latest argument first. -/
  | argument (location : Location) (callee : Expr) (arguments : List Expr)

/-- What is expected next. The forms are the open ones, innermost first. -/
inductive State where
  /-- An expression, or the end of the innermost form where that may end. -/
  | expression (forms : List Waiting)
  /-- The target of the definition opened at `location`. -/
  | naming (location : Location) (forms : List Waiting)
  /-- The end of a definition. -/
  | finishing (location : Location) (target : Symbol) (value : Expr) (forms : List Waiting)

inductive Step where
  | goOn (state : State)
  | done (e : Expr)

/-- Hands a complete expression to the innermost open form. -/
def deliver (e : Expr) : List Waiting → Step
  | [] => .done e
  | .head location :: forms => .goOn (.expression (.argument location e [] :: forms))
  | .value location target :: forms => .goOn (.finishing location target e forms)
  | .argument location callee arguments :: forms =>
    .goOn (.expression (.argument location callee (e :: arguments) :: forms))

/-- What is wrong with a token that neither starts an expression nor ends the innermost form. -/
def refusal (kind : Token.Kind) : List Waiting → ParseError.Cause
  | .head _ :: _ => .expectedForm
  | .argument .. :: _ => if kind = .eof then .unclosedCall else .expectedExpression
  | .value .. :: _ | [] => .expectedExpression

def feedExpression (forms : List Waiting) (t : Token) : Except ParseError Step :=
  match t.kind, forms with
  | .opening, _ =>
    if forms.length < maxNesting then .ok (.goOn (.expression (.head t.location :: forms)))
    else .error .tooDeep
  | .symbol name, .head location :: outer =>
    if name = defineWord then .ok (.goOn (.naming location outer))
    else .ok (deliver (.symbol ⟨name, t.location⟩) forms)
  | .symbol name, _ => .ok (deliver (.symbol ⟨name, t.location⟩) forms)
  | .integer value, _ => .ok (deliver (.integer value t.location) forms)
  | .text contents, _ => .ok (deliver (.text contents t.location) forms)
  | .closing, .argument location callee arguments :: outer =>
    .ok (deliver (.call callee arguments.reverse location) outer)
  | kind, _ => .error (.refused (refusal kind forms) t.location)

def State.feed (s : State) (t : Token) : Except ParseError Step :=
  match s with
  | .expression forms => feedExpression forms t
  | .naming location forms =>
    match t.kind with
    | .symbol name => .ok (.goOn (.expression (.value location ⟨name, t.location⟩ :: forms)))
    | _ => .error (.refused .expectedSymbol t.location)
  | .finishing location target value forms =>
    match t.kind with
    | .closing => .ok (deliver (.define target value location) forms)
    | _ => .error (.refused .unclosedDefine t.location)

theorem State.feed_eof (s : State) (t : Token) (h : t.kind = .eof) : ∃ e, s.feed t = .error e := by
  cases s <;> simp [feed, feedExpression, h]

def ofText (text : String) : Parser := ⟨.fresh text.toList, none⟩

/-- Takes in what the scanner answered. -/
def receive (p : Parser) (answer : Except LexError Token × Scanner) :
    Except ParseError Token × Parser :=
  match answer with
  | (.ok t, scanner) => (.ok t, ⟨scanner, some t⟩)
  | (.error e, scanner) => (.error (.malformed e), ⟨scanner, p.current⟩)

def start (p : Parser) : Except ParseError Token × Parser := p.receive p.scanner.start

def nextToken (p : Parser) : Except ParseError Token × Parser := p.receive p.scanner.next

/-- Bounds the number of tokens before `eof`. -/
def fuel (p : Parser) : Nat :=
  2 * p.scanner.ahead.length + if p.current.all (·.kind = .eof) then 0 else 1

theorem fuel_nextToken_lt {p p' : Parser} {t t' : Token} (hc : p.current = some t)
    (ht : t.kind ≠ .eof) (h : p.nextToken = (.ok t', p')) : p'.fuel < p.fuel := by
  have hle := p.scanner.ahead_next_le
  rw [nextToken] at h
  generalize hn : p.scanner.next = answer at h
  obtain ⟨e | u, s⟩ := answer
  · simp [receive] at h
  · obtain ⟨hu, rfl⟩ := by simpa [receive] using h
    subst hu
    have hlt := Scanner.ahead_next_lt (s := p.scanner) (t := u) (by rw [hn])
    simp only [hn] at hle hlt
    by_cases hk : u.kind = .eof
    · simp [fuel, hc, ht, hk]; omega
    · have := hlt hk
      simp [fuel, hc, ht, hk]; omega

/-- Parses from `s` up to the end of the expression that is under way. -/
def resume (s : State) (p : Parser) : Except ParseError Expr × Parser :=
  match hc : p.current with
  | none => (.error .notStarted, p)
  | some t =>
    match hf : s.feed t with
    | .error e => (.error e, p)
    | .ok step =>
      match hn : p.nextToken with
      | (.error e, p') => (.error e, p')
      | (.ok _, p') =>
        match step with
        | .done e => (.ok e, p')
        | .goOn s' =>
          have ht : t.kind ≠ .eof := fun h => by
            obtain ⟨e, he⟩ := s.feed_eof t h
            rw [hf] at he
            exact absurd he (by simp)
          have := fuel_nextToken_lt hc ht hn
          resume s' p'
termination_by p.fuel

/-- An expression that was read has used up a token. -/
theorem fuel_resume_lt {s : State} {p p' : Parser} {e : Expr} (h : resume s p = (.ok e, p')) :
    p'.fuel < p.fuel := by
  fun_induction resume s p with
  | case1 p hc => simp at h
  | case2 s p t hc e' hf => simp at h
  | case3 s p t hc step hf e' p₁ hn => simp at h
  | case4 s p t hc u p₁ hn e₁ hf =>
    obtain ⟨-, rfl⟩ := by simpa using h
    refine fuel_nextToken_lt hc (fun hk => ?_) hn
    obtain ⟨e, he⟩ := s.feed_eof t hk
    rw [hf] at he
    exact absurd he (by simp)
  | case5 s p t hc u p₁ hn s' hf ht hlt hf' ih => exact Nat.lt_trans (ih h) hlt

def parseExpr (p : Parser) : Except ParseError Expr × Parser := resume (.expression []) p

/-- Consumes the current token if `read` accepts it. -/
def expect {α : Type} (p : Parser) (cause : ParseError.Cause) (read : Token → Option α) :
    Except ParseError α × Parser :=
  match p.current with
  | none => (.error .notStarted, p)
  | some t =>
    match read t with
    | none => (.error (.refused cause t.location), p)
    | some a =>
      match p.nextToken with
      | (.error e, p') => (.error e, p')
      | (.ok _, p') => (.ok a, p')

def parseSymbol (p : Parser) : Except ParseError Expr × Parser :=
  p.expect .expectedSymbol fun t =>
    match t.kind with
    | .symbol name => some (.symbol ⟨name, t.location⟩)
    | _ => none

def parseInteger (p : Parser) : Except ParseError Expr × Parser :=
  p.expect .expectedInteger fun t =>
    match t.kind with
    | .integer value => some (.integer value t.location)
    | _ => none

def parseText (p : Parser) : Except ParseError Expr × Parser :=
  p.expect .expectedText fun t =>
    match t.kind with
    | .text contents => some (.text contents t.location)
    | _ => none

/-- Parses a form, which is a definition or a call. -/
def parseForm (p : Parser) : Except ParseError Expr × Parser :=
  match p.expect .expectedForm fun t => if t.kind = .opening then some t.location else none with
  | (.error e, p') => (.error e, p')
  | (.ok location, p') => resume (.expression [.head location]) p'

/-- Parses expressions up to `eof`. -/
def parseExprs (p : Parser) : Except ParseError (List Expr) × Parser :=
  match p.current with
  | none => (.error .notStarted, p)
  | some t =>
    if t.kind = .eof then (.ok [], p)
    else
      match h : p.parseExpr with
      | (.error e, p') => (.error e, p')
      | (.ok e, p') =>
        have := fuel_resume_lt h
        match p'.parseExprs with
        | (.error e, p'') => (.error e, p'')
        | (.ok es, p'') => (.ok (e :: es), p'')
termination_by p.fuel

def parseProgram (p : Parser) : Except ParseError Program × Parser :=
  match p.current with
  | none => (.error .notStarted, p)
  | some t =>
    match p.parseExprs with
    | (.error e, p') => (.error e, p')
    | (.ok es, p') => (.ok ⟨(es.head?.map Expr.location).getD t.location, es⟩, p')

end Parser

def parse (text : String) : Except ParseError Program :=
  match (Parser.ofText text).start with
  | (.error e, _) => .error e
  | (.ok _, p) => p.parseProgram.1

end SmallLisp
