import RefDoc.Site.Basic

namespace RefDoc.Site

variable (site : Site)

/-- The list shows modules and classes always, and functions unless they are methods. -/
def isListed (name : String) (s : Symbol) : Bool :=
  s.kind.mayHavePage && !(s.kind == .function && site.catalog.isClassMember name)

/-- A name without an address is an error. -/
def listedLinks : Except Reference.Unresolved (List (String × String)) :=
  (site.catalog.symbols.toList.filter fun (name, s) => site.isListed name s).mapM fun (name, _) =>
    return (name, ← site.resolver.linkTo name name "." true)

def symbolList (library : String) : Except Reference.Unresolved String := do
  let links := Text.sortOn Prod.fst (← site.listedLinks)
  let lines := ("# All symbols in " ++ library) :: "" :: links.map fun (_, link) => "*  " ++ link
  return String.intercalate "\n" lines

end RefDoc.Site
