import RefDoc.Table.Lemmas
import RefDoc.Text.Order

namespace RefDoc.Aliases

inductive Fault
  | notIndexed
  | itselfAlias
  deriving Repr, DecidableEq

structure Misplaced where
  name : String
  target : String
  fault : Fault
  deriving Repr, DecidableEq

def Fault.message : Fault → String
  | notIndexed => "which is not in the symbol index"
  | itselfAlias => "which is itself an alias"

def Misplaced.message (m : Misplaced) : String :=
  "Duplicate \"" ++ m.name ++ "\" points at \"" ++ m.target ++ "\", " ++ m.fault.message

variable {σ : Type u}

def Direct (symbols : Table σ) (aliases : Table String) : Prop :=
  ∀ name target, aliases.find? name = some target → target ∈ symbols ∧ target ∉ aliases

def fault? (symbols : Table σ) (aliases : Table String) (target : String) : Option Fault :=
  if target ∉ symbols then some .notIndexed
  else if target ∈ aliases then some .itselfAlias
  else none

def misplaced? (symbols : Table σ) (aliases : Table String) : Option Misplaced :=
  aliases.toList.findSome? fun (name, target) =>
    (fault? symbols aliases target).map fun fault => ⟨name, target, fault⟩

theorem fault?_eq_none_iff {symbols : Table σ} {aliases : Table String} {target : String} :
    fault? symbols aliases target = none ↔ target ∈ symbols ∧ target ∉ aliases := by
  rw [fault?]
  split
  · simp_all
  · split <;> simp_all

theorem misplaced?_eq_none_iff {symbols : Table σ} {aliases : Table String} :
    misplaced? symbols aliases = none ↔ Direct symbols aliases := by
  simp only [misplaced?, List.findSome?_eq_none_iff, Option.map_eq_none_iff, fault?_eq_none_iff,
    Prod.forall, Direct, Table.find?_eq_some_iff, Table.toList]

/-- The aliases of each target, in the order in which aliases first point at the targets. -/
def reverse (aliases : Table String) : Table (List String) :=
  let add (groups : Table (List String)) (entry : String × String) : Table (List String) :=
    groups.insert entry.2 ((groups.find? entry.2).getD [] ++ [entry.1])
  (aliases.toList.foldl add .empty).map Text.sort

end RefDoc.Aliases
