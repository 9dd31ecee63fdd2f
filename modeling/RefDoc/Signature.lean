namespace RefDoc

/-- The parameters of a callable. The defaults are source text and belong to the tail of `names`. -/
structure Signature where
  names : List String
  varargs? : Option String
  varkw? : Option String
  defaults : List String
  deriving Repr, DecidableEq, Inhabited

structure Parameter where
  name : String
  default? : Option String
  deriving Repr, DecidableEq

namespace Parameter

def render (p : Parameter) : String :=
  match p.default? with
  | none => p.name
  | some value => p.name ++ "=" ++ value

end Parameter

namespace Signature

/-- Which default belongs to the parameter at `index`, for so many names and defaults. -/
def defaultIndex? (names defaults index : Nat) : Option Nat :=
  if names ≤ index + defaults then some (index + defaults - names) else none

def parameters (s : Signature) : List Parameter :=
  s.names.mapIdx fun i name =>
    ⟨name, (defaultIndex? s.names.length s.defaults.length i).bind (s.defaults[·]?)⟩

def dropReceiver (receivers : List String) : List Parameter → List Parameter
  | [] => []
  | p :: ps => if p.name ∈ receivers then ps else p :: ps

/-- A name that collects further arguments; the empty name stands for none. -/
def collector (stars : String) : Option String → List String
  | none => []
  | some name => if name = "" then [] else [stars ++ name]

def render (receivers : List String) (s : Signature) : String :=
  let shown := (dropReceiver receivers s.parameters).map Parameter.render ++
    collector "*" s.varargs? ++ collector "**" s.varkw?
  "(" ++ String.intercalate ", " shown ++ ")"

end Signature

def defaultReceivers : List String := ["self"]

end RefDoc
