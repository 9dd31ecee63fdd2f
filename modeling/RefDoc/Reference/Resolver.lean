import RefDoc.Name
import RefDoc.Reference.Basic
import RefDoc.Reference.Token
import RefDoc.Table.Basic
import RefDoc.Url

namespace RefDoc

structure Document where
  title : String
  url : String
  deriving Repr, DecidableEq, Inhabited

/-- What references are resolved with; `σ` is what the index knows of a symbol. -/
structure Resolver (σ : Type u) where
  symbols : Table σ
  aliases : Table String
  documents : Table Document
  /-- The modules a symbol reference must lie in; an empty list admits every name. -/
  moduleNames : List String
  ownsPage : String → σ → Bool

namespace Resolver

open Reference

def link (text url : String) : String := "[" ++ text ++ "](" ++ url ++ ")"

def code (name : String) : String := "`" ++ name ++ "`"

def liesIn (name module : String) : Bool :=
  name == module || (module ++ ".").toList.isPrefixOf name.toList

variable {σ : Type u} (r : Resolver σ)

/-- One step from an alias; every other name is canonical. -/
def canonical (name : String) : String := (r.aliases.find? name).getD name

def symbol? (name : String) : Option σ := r.symbols.find? (r.canonical name)

def knows (name : String) : Bool := r.canonical name ∈ r.symbols

def url? (name root : String) : Option String :=
  let target := r.canonical name
  if (r.symbols.find? target).any (r.ownsPage target) then
    some (Url.join root (Name.pagePath target))
  else
    match Name.split? target with
    | none => none
    | some (parent, last) =>
      let page := r.canonical parent
      if page ∈ r.symbols then some (Url.join root (Name.pagePath page) ++ "#" ++ last) else none

def url (name root : String) : Except Unresolved String :=
  match r.url? name root with
  | some url => .ok url
  | none => .error ⟨name, .noSymbolOrParent⟩

def linkTo (text name root : String) (asCode : Bool) : Except Unresolved String := do
  return link (if asCode then code text else text) (← r.url name root)

def admits (name : String) : Bool := r.moduleNames.isEmpty || r.moduleNames.any (liesIn name)

def resolveBody (body root : String) : Except Unresolved String :=
  let reference := Reference.ofBody body
  match reference.target with
  | .document name anchor =>
    match r.documents.find? name with
    | none => .error ⟨reference.target.source, .unknownDocument name⟩
    | some document =>
      .ok (link (reference.text?.getD document.title) (Url.document root document.url ++ anchor))
  | .symbol name =>
    if r.admits name then
      match r.url? name root with
      | none => .error ⟨body, .unknownSymbol name⟩
      | some url => .ok (link (reference.text?.getD (code name)) url)
    else .error ⟨body, .outsideModules name⟩

/-- The link for one reference, given with or without its braces. -/
def resolve (token root : String) : Except Unresolved String := r.resolveBody (bodyOf token) root

def resolveFragment (root : String) : Fragment → Except Unresolved String
  | .plain c => .ok (String.ofList [c])
  | .token body => r.resolveBody (String.ofList body) root

/-- Puts a link in place of every token; the first token that leads nowhere is the error. -/
def replace (text root : String) : Except Unresolved String := do
  return String.join (← (fragments text.toList).mapM (r.resolveFragment root))

end Resolver

end RefDoc
