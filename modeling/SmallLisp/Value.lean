import SmallLisp.Text.Escape

/-!
# Values

What expressions evaluate to. Natives are the functions of the language: one is built in, and the
host that embeds an interpreter may add its own, named by the type `η`.
-/
namespace SmallLisp

inductive Native (η : Type) where
  /-- Writes its arguments. -/
  | debug
  | host (function : η)
deriving DecidableEq

inductive Value (η : Type) where
  | integer (n : Int)
  | text (contents : String)
  /-- No value. -/
  | nothing
  /-- A computation that the host has put off. -/
  | deferred
  | native (name : String) (function : Native η)
deriving DecidableEq

namespace Value

variable {η : Type}

/-- How a value is written out. -/
def render : Value η → String
  | integer n => toString n
  | text contents => Escape.quote contents
  | nothing => "none"
  | deferred => "<thunk>"
  | native name _ => "<native " ++ name ++ ">"

/-- Only natives can be called. -/
def isCallable : Value η → Bool
  | native .. => true
  | _ => false

/-- Equality as the language sees it: a native is known by its name alone, and what has been put
off is not comparable. -/
def same : Value η → Value η → Bool
  | integer m, integer n => m == n
  | text s, text t => s == t
  | nothing, nothing => true
  | native name _, native name' _ => name == name'
  | _, _ => false

end Value
end SmallLisp
