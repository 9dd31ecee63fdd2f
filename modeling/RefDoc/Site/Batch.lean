import RefDoc.Page.Build
import RefDoc.Page.Markdown

namespace RefDoc

inductive Event
  | warning (w : Warning)
  | progress (current total : Nat) (name : String)
  | failure (name : String) (error : BuildError)
  deriving Repr, DecidableEq

def Event.phase : String := "pages"

structure Batch where
  pages : Table String
  errors : List (String × BuildError)
  events : List Event
  deriving DecidableEq

namespace Batch

def empty : Batch := ⟨.empty, [], []⟩

def add (b : Batch) (name : String) (report : Report Page) : Batch :=
  let events := b.events ++ report.warnings.map Event.warning
  match report.result with
  | .ok page => { b with pages := b.pages.insert (Name.pagePath name) page.markdown, events }
  | .error e => { b with errors := b.errors ++ [(name, e)], events := events ++ [.failure name e] }

end Batch

namespace Site

variable (site : Site)

/-- The names whose pages a run builds: without a choice all canonical names with a page. -/
def pageNames (chosen : Option (List String)) : List String :=
  let candidates := chosen.getD site.catalog.symbols.keys
  Text.sort (candidates.filter fun name => !site.isAlias name && site.hasPage name)

def generateOne (total : Nat) (b : Batch) (entry : String × Nat) : Batch :=
  let (name, index) := entry
  let b := { b with events := b.events ++ [.progress (index + 1) total name] }
  match site.catalog.symbols.find? name with
  | none => b
  | some s => b.add name (site.page name s)

def generate (chosen : Option (List String)) : Batch :=
  let names := site.pageNames chosen
  names.zipIdx.foldl (site.generateOne names.length) .empty

end Site

end RefDoc
