import Mathlib.Data.List.Forall2
import RefDoc.Manifest.Basic
import RefDoc.Proofs.Manifest.Schema

namespace RefDoc

def Json.present (fields : List (String × Option Json)) : List (String × Json) :=
  fields.filterMap fun (name, value) => value.map fun v => (name, v)

def Json.ofTable {α : Type} (write : α → Json) (t : Table α) : Json := .obj (t.map write).entries

def Location.toJson (l : Location) : Json :=
  .obj (Json.present [("path", some (.str l.path)), ("url", l.url?.map .str)])

def Binding.toJson : Binding → Json
  | positional values =>
    .obj (Json.present [("kind", some (.str "positional")), ("values", some (.arr values))])
  | keyword values =>
    .obj (Json.present [("kind", some (.str "keyword")), ("values", some (.ofTable id values))])

def Callable.toJson (c : Callable) : Json :=
  .obj (Json.present [("names", some (.arr (c.signature.names.map .str))),
    ("varargsName", c.signature.varargs?.map .str), ("varkwName", c.signature.varkw?.map .str),
    ("defaults", some (.arr (c.signature.defaults.map .str))),
    ("bindings", some (.arr (c.bindings.map Binding.toJson)))])

def Symbol.toJson (s : Symbol) : Json :=
  .obj (Json.present [("kind", some (.str s.kind.name)), ("docstring", s.docstring?.map .str),
    ("signature", s.callable?.map Callable.toJson),
    ("definedIn", s.definedIn?.map Location.toJson)])

def Document.toJson (d : Document) : Json :=
  .obj (Json.present [("title", some (.str d.title)), ("url", some (.str d.url))])

def Guide.toJson (g : Guide) : Json :=
  .obj (Json.present [("title", some (.str g.title)), ("url", some (.str g.url)),
    ("sectionTitle", g.sectionTitle?.map .str), ("sectionTag", g.sectionTag?.map .str)])

namespace Manifest

def toJson (m : Manifest) : Json :=
  .obj (Json.present [("version", some (.str m.version)),
    ("libraryName", some (.str m.libraryName)),
    ("moduleNames", some (.arr (m.moduleNames.map .str))),
    ("symbols", some (.ofTable Symbol.toJson m.symbols)),
    ("duplicateOf", some (.ofTable .str m.aliases)),
    ("tree", some (.ofTable (fun names => .arr (names.map .str)) m.tree)),
    ("docIndex", some (.ofTable Document.toJson m.documents)),
    ("guideIndex", some (.ofTable (fun guides => .arr (guides.map Guide.toJson)) m.guides))])

/-- Whether a field is there or need not be: a default is written out. -/
def Presence.Admits (presence : Presence) (good : Json → Prop) : Option Json → Prop
  | none => presence = .optional
  | some v => good v

/-- Whether a field stays: its value is kept, or its default is written where it was missing. -/
def Presence.Carries (presence : Presence) (keeps : Json → Json → Prop) :
    Option Json → Option Json → Prop
  | some v, some w => keeps v w
  | some _, none => False
  | none, some w => presence = .defaulted w
  | none, none => True

mutual

/-- Whether a value has the form of a schema with each default written out, and no other members. -/
def Schema.Normal : Schema → Json → Prop
  | .any, _ => True
  | .text, w => ∃ s, w = .str s
  | .kind, w => ∃ name ∈ kindNames, w = .str name
  | .list item, w => ∃ items, w = .arr items ∧ ∀ v ∈ items, item.Normal v
  | .record entry, w => ∃ members, w = .obj members ∧ (members.map Prod.fst).Nodup ∧
    Decoder.reservedKey ∉ members.map Prod.fst ∧ ∀ m ∈ members, entry.Normal m.2
  | .object fields, w => ∃ members, w = .obj members ∧
    (members.map Prod.fst).Sublist fields.names ∧ fields.Normal members
  | .tagged positional keyword, w => ∃ members, w = .obj members ∧
    ((Json.member? members "kind" = some (.str "positional") ∧
        (members.map Prod.fst).Sublist ("kind" :: positional.names) ∧ positional.Normal members) ∨
      (Json.member? members "kind" = some (.str "keyword") ∧
        (members.map Prod.fst).Sublist ("kind" :: keyword.names) ∧ keyword.Normal members))

def Fields.Normal : Fields → List (String × Json) → Prop
  | .nil, _ => True
  | .snoc before name presence schema, members =>
    before.Normal members ∧ presence.Admits schema.Normal (Json.member? members name)

end

mutual

/-- Whether a value is kept: all parts that the schema speaks of, in order, but no reserved key. -/
def Schema.Keeps : Schema → Json → Json → Prop
  | .any, v, w => v = w
  | .text, v, w => v = w
  | .kind, v, w => v = w
  | .list item, v, w => ∃ items items', v = .arr items ∧ w = .arr items' ∧
    List.Forall₂ item.Keeps items items'
  | .record entry, v, w => ∃ members members', v = .obj members ∧ w = .obj members' ∧
    List.Forall₂ (fun m m' => m.1 = m'.1 ∧ entry.Keeps m.2 m'.2)
      (members.filter (·.1 != Decoder.reservedKey)) members'
  | .object fields, v, w => ∃ members members', v = .obj members ∧ w = .obj members' ∧
    fields.Keeps members members'
  | .tagged positional keyword, v, w => ∃ members members', v = .obj members ∧ w = .obj members' ∧
    Json.member? members "kind" = Json.member? members' "kind" ∧
      (Json.member? members "kind" = some (.str "positional") → positional.Keeps members members') ∧
      (Json.member? members "kind" = some (.str "keyword") → keyword.Keeps members members')

def Fields.Keeps : Fields → List (String × Json) → List (String × Json) → Prop
  | .nil, _, _ => True
  | .snoc before name presence schema, members, members' => before.Keeps members members' ∧
    presence.Carries schema.Keeps (Json.member? members name) (Json.member? members' name)

end

end Manifest

end RefDoc
