import RefDoc.Docstring.Basic
import RefDoc.Json.Basic
import RefDoc.Symbol

namespace RefDoc

structure Member where
  shortName : String
  fullName : String
  /-- The address of the child, if the page may link to it. -/
  url? : Option String
  kind : Kind
  doc : Docstring
  signature? : Option String
  linked : Bool
  deriving DecidableEq

structure ClassMembers where
  methods : List Member
  properties : List Member
  classes : List Member
  others : List Member
  deriving DecidableEq

def ClassMembers.ofList (members : List Member) : ClassMembers where
  methods := members.filter (·.kind == .function)
  properties := members.filter (·.kind == .property)
  classes := members.filter (·.kind == .cls)
  others := members.filter fun m => m.kind == .module || m.kind == .other

inductive PageBody
  | function (signature : String)
  | cls (members : ClassMembers)
  | module (members : List Member)
  deriving DecidableEq

structure Page where
  fullName : String
  aliases : List String
  definedIn? : Option Location
  guides : String
  doc : Docstring
  body : PageBody
  deriving DecidableEq

inductive PageKind
  | function
  | cls
  | module
  deriving Repr, DecidableEq

structure UnknownPageKind where
  kind? : Option Json
  deriving DecidableEq

def UnknownPageKind.message (e : UnknownPageKind) : String :=
  "Unknown page info kind: " ++ (e.kind?.map Json.display).getD "undefined"

def PageBody.kind : PageBody → PageKind
  | function _ => .function
  | cls _ => .cls
  | module _ => .module

def PageKind.ofJson : Option Json → Except UnknownPageKind PageKind
  | some (.str "function") => .ok .function
  | some (.str "class") => .ok .cls
  | some (.str "module") => .ok .module
  | kind? => .error ⟨kind?⟩

def PageKind.name : PageKind → String
  | function => "function"
  | cls => "class"
  | module => "module"

end RefDoc
