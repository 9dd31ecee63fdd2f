import RefDoc.Reference.Resolver
import RefDoc.Symbol

namespace RefDoc

inductive BuildError
  | unresolved (e : Reference.Unresolved)
  | overBound (e : OverBound)
  | unsupported (name : String) (kind : Kind)
  deriving Repr, DecidableEq

def BuildError.message : BuildError → String
  | unresolved e => e.message
  | overBound e => e.message
  | unsupported name kind =>
    "Cannot build a page for " ++ name ++ ": symbols of kind \"" ++ kind.name ++ "\" have no page"

inductive Warning
  | hidden (name : String)
  | notIndexed (name : String)
  deriving Repr, DecidableEq

def Warning.message : Warning → String
  | hidden name => "Skipping " ++ name ++ ": hidden member"
  | notIndexed name => "Skipping " ++ name ++ ": listed in the tree but not in the symbol index"

/-- A result with the warnings given on the way to it, in order. -/
structure Report (α : Type u) where
  warnings : List Warning
  result : Except BuildError α

namespace Report

variable {α : Type u} {β : Type v}

def ofExcept (result : Except BuildError α) : Report α := ⟨[], result⟩

def map (f : α → β) (r : Report α) : Report β := ⟨r.warnings, r.result.map f⟩

def warn (w : Warning) (r : Report α) : Report α := ⟨w :: r.warnings, r.result⟩

def bind (r : Report α) (f : α → Report β) : Report β :=
  match r.result with
  | .error e => ⟨r.warnings, .error e⟩
  | .ok a => ⟨r.warnings ++ (f a).warnings, (f a).result⟩

instance : Monad Report where
  pure a := ofExcept (.ok a)
  bind := bind

end Report

end RefDoc
