import RefDoc.Manifest.Basic

namespace RefDoc.Manifest

inductive Presence
  | required
  | optional
  | defaulted (missing : Json)

mutual

inductive Schema
  | any
  | text
  | kind
  | list (item : Schema)
  | record (entry : Schema)
  | object (fields : Fields)
  /-- An object whose kind, `positional` or `keyword`, decides on its other fields. -/
  | tagged (positional keyword : Fields)

/-- The fields of an object, the last one outermost. -/
inductive Fields
  | nil
  | snoc (before : Fields) (name : String) (presence : Presence) (schema : Schema)

end

namespace Fields

def required (fields : Fields) (name : String) (schema : Schema) : Fields :=
  fields.snoc name .required schema

def optional (fields : Fields) (name : String) (schema : Schema) : Fields :=
  fields.snoc name .optional schema

def defaulted (fields : Fields) (name : String) (schema : Schema) (missing : Json) : Fields :=
  fields.snoc name (.defaulted missing) schema

def names : Fields → List String
  | nil => []
  | snoc before name _ _ => before.names ++ [name]

end Fields

namespace Schema

def location : Schema := .object (Fields.nil |>.required "path" .text |>.optional "url" .text)

def binding : Schema :=
  .tagged (Fields.nil.required "values" (.list .any)) (Fields.nil.required "values" (.record .any))

def callable : Schema :=
  .object (Fields.nil |>.required "names" (.list .text) |>.optional "varargsName" .text
    |>.optional "varkwName" .text |>.defaulted "defaults" (.list .text) (.arr [])
    |>.defaulted "bindings" (.list binding) (.arr []))

def symbol : Schema :=
  .object (Fields.nil |>.required "kind" .kind |>.optional "docstring" .text
    |>.optional "signature" callable |>.optional "definedIn" location)

def document : Schema := .object (Fields.nil |>.required "title" .text |>.required "url" .text)

def guide : Schema :=
  .object (Fields.nil |>.required "title" .text |>.required "url" .text
    |>.optional "sectionTitle" .text |>.optional "sectionTag" .text)

def manifest : Schema :=
  .object (Fields.nil |>.required "version" .text |>.required "libraryName" .text
    |>.defaulted "moduleNames" (.list .text) (.arr []) |>.required "symbols" (.record symbol)
    |>.defaulted "duplicateOf" (.record .text) (.obj [])
    |>.defaulted "tree" (.record (.list .text)) (.obj [])
    |>.defaulted "docIndex" (.record document) (.obj [])
    |>.defaulted "guideIndex" (.record (.list guide)) (.obj []))

end Schema

mutual

/-- Whether the fields of each object have names of their own, and none the name of the kind. -/
def Schema.Proper : Schema → Prop
  | .any | .text | .kind => True
  | .list item => item.Proper
  | .record entry => entry.Proper
  | .object fields => fields.Proper
  | .tagged positional keyword =>
    ("kind" ∉ positional.names ∧ positional.Proper) ∧ "kind" ∉ keyword.names ∧ keyword.Proper

def Fields.Proper : Fields → Prop
  | .nil => True
  | .snoc before name _ schema => name ∉ before.names ∧ before.Proper ∧ schema.Proper

end

theorem Schema.manifest_proper : Schema.manifest.Proper := by
  simp [manifest, symbol, callable, binding, location, document, guide, Proper, Fields.Proper,
    Fields.required, Fields.optional, Fields.defaulted, Fields.names]

end RefDoc.Manifest
