import RefDoc.Callable

namespace RefDoc

inductive Kind
  | module
  | cls
  | function
  | property
  | other
  deriving Repr, DecidableEq, Inhabited

namespace Kind

def all : List Kind := [module, cls, function, property, other]

def name : Kind → String
  | module => "module"
  | cls => "class"
  | function => "function"
  | property => "property"
  | other => "other"

def ofName? (s : String) : Option Kind := all.find? (·.name == s)

def mayHavePage : Kind → Bool
  | module | cls | function => true
  | property | other => false

theorem ofName?_name (k : Kind) : ofName? k.name = some k := by cases k <;> decide

end Kind

structure Location where
  path : String
  url? : Option String
  deriving Repr, DecidableEq, Inhabited

structure Symbol where
  kind : Kind
  docstring? : Option String
  callable? : Option Callable
  definedIn? : Option Location
  deriving DecidableEq

namespace Symbol

def rawDocstring (s : Symbol) : String := s.docstring?.getD ""

/-- The signature a caller sees; a symbol that is not callable shows nothing. -/
def shownSignature (receivers : List String) (s : Symbol) : Except OverBound String :=
  match s.callable? with
  | none => .ok ""
  | some callable => do return (← callable.free).render receivers

end Symbol

end RefDoc
