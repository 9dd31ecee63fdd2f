import RefDoc.Manifest.Issue
import RefDoc.Table.Basic

namespace RefDoc.Manifest

/-- A decoded value, or all that is wrong with its source. -/
inductive Checked (α : Type u)
  | valid (value : α)
  | invalid (issues : List Issue)
  deriving Repr, DecidableEq

namespace Checked

variable {α : Type u} {β : Type v}

def map (f : α → β) : Checked α → Checked β
  | valid value => valid (f value)
  | invalid issues => invalid issues

def ap : Checked (α → β) → Checked α → Checked β
  | valid f, valid value => valid (f value)
  | valid _, invalid issues => invalid issues
  | invalid issues, valid _ => invalid issues
  | invalid issues, invalid more => invalid (issues ++ more)

instance : Applicative Checked where
  pure := valid
  map := map
  seq f x := ap f (x ())

def under (step : Step) : Checked α → Checked α
  | valid value => valid value
  | invalid issues => invalid (issues.map (Issue.under step))

end Checked

abbrev Decoder (α : Type u) := Option Json → Checked α

namespace Decoder

variable {α : Type}

def fail (problem : Problem) : Checked α := .invalid [⟨[], problem⟩]

def wrongShape (expected : Shape) (value : Option Json) : Checked α :=
  fail (.wrongShape expected (Shape.of value))

def text : Decoder String
  | some (.str s) => .valid s
  | value => wrongShape .string value

def optional (decoder : Decoder α) : Decoder (Option α)
  | none => .valid none
  | some value => some <$> decoder (some value)

def orElse (decoder : Decoder α) (missing : α) : Decoder α
  | none => .valid missing
  | some value => decoder (some value)

def itemsFrom (decoder : Decoder α) (index : Nat) : List Json → Checked (List α)
  | [] => .valid []
  | item :: rest =>
    (· :: ·) <$> (decoder (some item)).under (.index index) <*> itemsFrom decoder (index + 1) rest

def list (decoder : Decoder α) : Decoder (List α)
  | some (.arr items) => itemsFrom decoder 0 items
  | value => wrongShape .array value

def entries (decoder : Decoder α) : List (String × Json) → Checked (List (String × α))
  | [] => .valid []
  | (key, value) :: rest =>
    (fun a more => (key, a) :: more) <$> (decoder (some value)).under (.key key) <*>
      entries decoder rest

/-- The key that no record keeps, though its value is checked. -/
def reservedKey : String := "__proto__"

def toTable (members : List (String × α)) : Table α := (Table.ofList members).erase reservedKey

def record (decoder : Decoder α) : Decoder (Table α)
  | some (.obj members) => toTable <$> entries decoder members
  | value => wrongShape .object value

def anyList : Decoder (List Json)
  | some (.arr items) => .valid items
  | value => wrongShape .array value

def anyRecord : Decoder (Table Json)
  | some (.obj members) => .valid (toTable members)
  | value => wrongShape .object value

def object (fields : List (String × Json) → Checked α) : Decoder α
  | some (.obj members) => fields members
  | value => wrongShape .object value

def field (members : List (String × Json)) (name : String) (decoder : Decoder α) : Checked α :=
  (decoder (Json.member? members name)).under (.key name)

end Decoder

end RefDoc.Manifest
