import RefDoc.Docstring.Machine
import RefDoc.Page.Basic
import RefDoc.Page.Report
import RefDoc.Site.Basic

namespace RefDoc

structure Child where
  shortName : String
  fullName : String
  symbol : Symbol
  deriving DecidableEq

namespace Site

variable (site : Site)

/-- The child of a short name, or why no page shows it. -/
def child (parent short : String) : Except Warning Child :=
  let name := Name.child parent short
  if short ∈ site.options.hidden then .error (.hidden name)
  else
    match site.catalog.symbols.find? name with
    | none => .error (.notIndexed name)
    | some symbol => .ok ⟨short, name, symbol⟩

def children (name : String) : List (Except Warning Child) :=
  ((site.catalog.tree.find? name).getD []).map (site.child name)

def docstring (s : Symbol) (root : String) : Except BuildError Docstring := do
  let text ← (site.resolver.replace s.rawDocstring root).mapError BuildError.unresolved
  return Docstring.ofText text site.options.keywords

def signature (s : Symbol) : Except BuildError String :=
  (s.shownSignature site.options.receivers).mapError BuildError.overBound

def memberSignature (s : Symbol) : Except BuildError (Option String) :=
  if s.kind = .function then some <$> site.signature s else return none

def memberUrl (name root : String) : Except BuildError String :=
  (site.resolver.url name root).mapError BuildError.unresolved

/-- A member of a class always has an address; only child classes are linked. -/
def classMember (root : String) (c : Child) : Except BuildError Member := do
  let url ← site.memberUrl c.fullName root
  let doc ← site.docstring c.symbol root
  let signature? ← site.memberSignature c.symbol
  return ⟨c.shortName, c.fullName, some url, c.symbol.kind, doc, signature?, c.symbol.kind == .cls⟩

/-- A member of a module is linked, and has an address, if symbols of its kind may have a page. -/
def moduleMember (root : String) (c : Child) : Except BuildError Member := do
  let linked := c.symbol.kind.mayHavePage
  let doc ← site.docstring c.symbol root
  let url? ← if linked then some <$> site.memberUrl c.fullName root else pure none
  let signature? ← site.memberSignature c.symbol
  return ⟨c.shortName, c.fullName, url?, c.symbol.kind, doc, signature?, linked⟩

/-- The members made of the children that a page shows, with a warning for each other one. -/
def members (make : Child → Except BuildError Member) :
    List (Except Warning Child) → Report (List Member)
  | [] => pure []
  | .error w :: rest => (members make rest).warn w
  | .ok c :: rest => do
    let m ← Report.ofExcept (make c)
    let ms ← members make rest
    return m :: ms

def body (name root : String) (s : Symbol) (given : String) : Report PageBody :=
  match s.kind with
  | .function | .property => Report.ofExcept ((site.signature s).map PageBody.function)
  | .cls =>
    (members (site.classMember root) (site.children name)).map fun ms =>
      .cls (ClassMembers.ofList ms)
  | .module => (members (site.moduleMember root) (site.children name)).map PageBody.module
  | .other => Report.ofExcept (.error (.unsupported given .other))

def otherNames (canonical : String) : List String :=
  ((site.aliasesByName.find? canonical).getD []).filter (· != canonical)

/-- The page of a symbol under a name, which may be an alias. -/
def page (name : String) (s : Symbol) : Report Page := do
  let canonical := site.resolver.canonical name
  let root := Name.rootPath canonical
  let aliases := site.otherNames canonical
  let doc ← Report.ofExcept (site.docstring s root)
  let body ← site.body canonical root s name
  return {
    fullName := canonical
    aliases
    definedIn? := s.definedIn?
    guides := Guide.line (canonical :: aliases) site.catalog.guides root
    doc
    body }

end Site

end RefDoc
