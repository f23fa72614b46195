import SmallLisp.Env
import SmallLisp.Expr

/-!
# Evaluation

Evaluates expressions from left to right against an environment, which keeps all that was done up to
a failure. Natives of the host may enter and leave scopes, but neither bind names nor evaluate.
-/
namespace SmallLisp

/-- How a native of the host may move between scopes. -/
inductive Move (η : Type) where
  | enter (bindings : List (String × Value η))
  | reenter (number : Nat)
  | leave

/-- What a native of the host does when it is called: its moves, then its result. -/
structure Reaction (η : Type) where
  moves : List (Move η)
  result : Except EvalError (Value η)

/-- The natives of a host. They know their arguments and the environment they are called in, its
history included. -/
class Host (η : Type) where
  react : η → List (Value η) → Env η → Reaction η

/-- The host without natives. -/
instance : Host Empty := ⟨fun function => nomatch function⟩

/-- A computation that changes an environment and may fail. -/
abbrev Action (η : Type) (α : Type) := ExceptT EvalError (StateM (Env η)) α

namespace Action

variable {η : Type}

def fail {α : Type} (cause : EvalError.Cause) (location : Option Location) : Action η α :=
  throw ⟨cause, location⟩

def bind (name : String) (value : Value η) (location : Option Location) : Action η Unit := do
  match (← get).bind name value location with
  | .error e => throw e
  | .ok env => set env

def resolve (name : String) (location : Option Location) : Action η (Value η) := do
  match (← get).resolve name location with
  | .error e => throw e
  | .ok value => return value

def perform : Move η → Action η Unit
  | .enter bindings => modify (·.enter bindings)
  | .reenter number => modify (·.reenter number)
  | .leave => do
    match (← get).leave with
    | .error e => throw e
    | .ok (_, env) => set env

/-- Calls a native. -/
def invoke [Host η] (name : String) (function : Native η) (arguments : List (Value η)) :
    Action η (Value η) := do
  modify (·.record (.invoked name function arguments))
  match function with
  | .debug =>
    modify (·.write (" ".intercalate (arguments.map Value.render)))
    return .nothing
  | .host function =>
    let reaction := Host.react function arguments (← get)
    reaction.moves.forM perform
    match reaction.result with
    | .error e => throw e
    | .ok value => return value

end Action

/-- The name by which a callee is blamed. -/
def Expr.calleeName {η : Type} (callee : Expr) (value : Value η) : String :=
  match callee with
  | .symbol s => s.name
  | _ => value.render

mutual

/-- The callee of a call comes before its arguments, and must be callable for them to be evaluated
at all. -/
def Expr.eval {η : Type} [Host η] : Expr → Action η (Value η)
  | .symbol s => Action.resolve s.name (some s.location)
  | .integer value _ => return .integer value
  | .text contents _ => return .text contents
  | .define target value location => do
    let v ← value.eval
    Action.bind target.name v (some location)
    return .nothing
  | .call callee arguments _ => do
    match ← callee.eval with
    | .native name function => do
      let values ← Expr.evalAll arguments
      Action.invoke name function values
    | value => Action.fail (.notCallable (callee.calleeName value)) (some callee.location)

def Expr.evalAll {η : Type} [Host η] : List Expr → Action η (List (Value η))
  | [] => return []
  | e :: es => do
    let value ← e.eval
    let values ← Expr.evalAll es
    return value :: values

end

/-- A program is evaluated for its effects alone. -/
def Program.eval {η : Type} [Host η] (p : Program) : Action η (Value η) := do
  let _ ← Expr.evalAll p.exprs
  return .nothing

end SmallLisp
