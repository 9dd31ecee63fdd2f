import RefDoc.Guide
import RefDoc.Reference.Resolver
import RefDoc.Site.Aliases
import RefDoc.Symbol

namespace RefDoc

structure Catalog where
  symbols : Table Symbol
  aliases : Table String
  /-- The short names of the children of modules and classes. -/
  tree : Table (List String)
  documents : Table Document
  guides : Table (List Guide)
  moduleNames : List String
  deriving DecidableEq

structure Options where
  receivers : List String := defaultReceivers
  hidden : List String := []
  /-- The keywords that head a section; without a list every capitalised word does. -/
  keywords : Option (List String) := none
  deriving DecidableEq

namespace Catalog

variable (c : Catalog)

def isClassMember (name : String) : Bool :=
  ((Name.parent? name).bind c.symbols.find?).any (·.kind == .cls)

/-- Members of a class stand on its page, except classes. -/
def ownsPage (name : String) (s : Symbol) : Bool :=
  s.kind.mayHavePage && (s.kind == .cls || !c.isClassMember name)

def resolver : Resolver Symbol where
  symbols := c.symbols
  aliases := c.aliases
  documents := c.documents
  moduleNames := c.moduleNames
  ownsPage := c.ownsPage

def hasPage (name : String) : Bool := (c.symbols.find? name).any (c.ownsPage name)

end Catalog

structure Site where
  catalog : Catalog
  options : Options
  direct : Aliases.Direct catalog.symbols catalog.aliases

namespace Site

/-- The site of a catalog, or the first alias that is not direct. -/
def ofCatalog (catalog : Catalog) (options : Options) : Except Aliases.Misplaced Site :=
  match h : Aliases.misplaced? catalog.symbols catalog.aliases with
  | some misplaced => .error misplaced
  | none => .ok ⟨catalog, options, Aliases.misplaced?_eq_none_iff.mp h⟩

variable (site : Site)

def resolver : Resolver Symbol := site.catalog.resolver

def aliasesByName : Table (List String) := Aliases.reverse site.catalog.aliases

def isAlias (name : String) : Bool := name ∈ site.catalog.aliases

def hasPage (name : String) : Bool := site.catalog.hasPage name

def hiddenNames : List String := Text.sort site.options.hidden.eraseDups

end Site

end RefDoc
