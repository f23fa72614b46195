import SmallLisp.Scope
import SmallLisp.Text.Lines
import SmallLisp.Text.Location

/-!
# Environments

The scopes of an interpreter: all that were ever made, and a stack of those that are entered, at its
bottom the global one. A scope is known by its number, so it can be entered again after it was left,
and may then stand on the stack twice. Nothing is ever unbound.
-/
namespace SmallLisp

inductive EvalError.Cause where
  | alreadyBound (name : String)
  | unbound (name : String)
  | notCallable (name : String)
  /-- The global scope cannot be left. -/
  | onlyGlobal
deriving DecidableEq

def EvalError.Cause.message : EvalError.Cause → String
  | alreadyBound name => "'" ++ name ++ "' is already bound in this scope"
  | unbound name => "'" ++ name ++ "' is not bound"
  | notCallable name => "'" ++ name ++ "' is not callable"
  | onlyGlobal => "cannot pop the global namespace"

/-- A failure of evaluation. What the host asks for has no location. -/
structure EvalError where
  cause : EvalError.Cause
  location : Option Location
deriving DecidableEq

def EvalError.message (e : EvalError) : String := e.cause.message

/-- What happens to an environment. -/
inductive Event (η : Type) where
  /-- A binding in the innermost scope when `depth` scopes were on the stack. -/
  | bound (name : String) (value : Value η) (depth : Nat)
  | invoked (name : String) (function : Native η) (arguments : List (Value η))
  /-- A line of output. -/
  | wrote (line : String)
  /-- A remark for the log. -/
  | noted (remark : String)

/-- Scope number 0 is the global one. -/
structure Env (η : Type) where
  scopes : List (Scope η)
  /-- The numbers of the scopes entered since, innermost first. -/
  entered : List Nat
  /-- What has happened, latest first. -/
  history : List (Event η)

namespace Env

variable {η : Type}

def global : Nat := 0

/-- The scopes that names are looked up in, innermost first. -/
def stack (e : Env η) : List Nat := e.entered ++ [global]

/-- The number of the scope that names are bound in. -/
def innermost (e : Env η) : Nat := e.entered.headD global

def scope (e : Env η) (number : Nat) : Scope η := e.scopes.getD number .empty

def journal (e : Env η) : List (Event η) := e.history.reverse

/-- What has happened since the environment was `before`. -/
def since (e before : Env η) : List (Event η) :=
  (e.history.take (e.history.length - before.history.length)).reverse

def record (e : Env η) (event : Event η) : Env η := { e with history := event :: e.history }

def write (e : Env η) (line : String) : Env η := e.record (.wrote line)

def bind (e : Env η) (name : String) (value : Value η) (location : Option Location) :
    Except EvalError (Env η) :=
  match (e.scope e.innermost).bind? name value with
  | none => .error ⟨.alreadyBound name, location⟩
  | some s =>
    .ok ({ e with scopes := e.scopes.set e.innermost s }.record
      (.bound name value e.stack.length))

/-- The value of a name in the innermost scope that binds it. -/
def resolve (e : Env η) (name : String) (location : Option Location) :
    Except EvalError (Value η) :=
  match e.stack.findSome? fun number => (e.scope number).get? name with
  | none => .error ⟨.unbound name, location⟩
  | some value => .ok value

def enter (e : Env η) (bindings : List (String × Value η)) : Env η :=
  { e with scopes := e.scopes ++ [.ofList bindings], entered := e.scopes.length :: e.entered }

/-- Enters a scope that was made before; there is no other effect of an unknown number. -/
def reenter (e : Env η) (number : Nat) : Env η :=
  if number < e.scopes.length then { e with entered := number :: e.entered } else e

def leave (e : Env η) : Except EvalError (Nat × Env η) :=
  match e.entered with
  | [] => .error ⟨.onlyGlobal, none⟩
  | number :: outer => .ok (number, { e with entered := outer })

def defineNative (e : Env η) (name : String) (function : Native η) : Except EvalError (Env η) :=
  e.bind name (.native name function) none

/-- The global scope, with the built-in native bound. -/
def initial : Env η where
  scopes := [⟨[("debug", .native "debug" .debug)]⟩]
  entered := []
  history := [.bound "debug" (.native "debug" .debug) 1]

end Env

namespace Event

variable {η : Type}

def line? : Event η → Option String
  | wrote line => some line
  | _ => none

def output (events : List (Event η)) : String := Lines.unlines (events.filterMap line?)

end Event
end SmallLisp
