import RefDoc.Json.Basic
import RefDoc.Signature

namespace RefDoc

inductive Binding
  | positional (values : List Json)
  | keyword (values : Table Json)
  deriving DecidableEq

namespace Binding

def count? : Binding → Option Nat
  | positional values => some values.length
  | keyword _ => none

def keywords : Binding → List String
  | positional _ => []
  | keyword values => values.keys

end Binding

/-- A record binds more positional values than there are parameters left. -/
structure OverBound where
  declared : Nat
  bound : Nat
  deriving Repr, DecidableEq

def OverBound.message (e : OverBound) : String :=
  "Partial binding supplies " ++ toString e.bound ++ " positional values but only " ++
    toString e.declared ++ " named parameters remain"

namespace Signature

/-- Binds the first `count` parameters. Defaults without a parameter are lost as well. -/
def bindFirst (s : Signature) (count : Nat) : Except OverBound Signature :=
  if s.names.length < count then .error ⟨s.names.length, count⟩
  else
    .ok
      { s with
        names := s.names.drop count
        defaults := s.defaults.drop (count + s.defaults.length - s.names.length) }

def bindName (s : Signature) (name : String) : Signature :=
  match s.names.idxOf? name with
  | none => s
  | some i =>
    { s with
      names := s.names.eraseIdx i
      defaults :=
        match defaultIndex? s.names.length s.defaults.length i with
        | none => s.defaults
        | some j => s.defaults.eraseIdx j }

/-- What is left of a signature: all positional records come first, then all keywords. -/
def bind (s : Signature) (bindings : List Binding) : Except OverBound Signature := do
  let rest ← (bindings.filterMap Binding.count?).foldlM bindFirst s
  return (bindings.flatMap Binding.keywords).foldl bindName rest

end Signature

structure Callable where
  signature : Signature
  bindings : List Binding
  deriving DecidableEq

def Callable.free (c : Callable) : Except OverBound Signature := c.signature.bind c.bindings

end RefDoc
