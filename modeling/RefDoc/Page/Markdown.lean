import RefDoc.Page.Basic
import RefDoc.Text.Order

namespace RefDoc

def Location.markdown (l : Location) : String :=
  let path := "`" ++ l.path ++ "`"
  match l.url? with
  | some url =>
    if url = "" then "Defined in " ++ path ++ ".\n\n"
    else "Defined in [" ++ path ++ "](" ++ url ++ ").\n\n"
  | none => "Defined in " ++ path ++ ".\n\n"

namespace Section

def itemMarkdown (item : Item) : String := "* **" ++ item.name ++ "**:" ++ item.description

def markdown (s : Section) : String :=
  "#### " ++ s.keyword ++ ":\n\n" ++ s.header ++ String.join (s.items.map itemMarkdown)

def listMarkdown (sections : List Section) : String :=
  String.intercalate "\n" (sections.map markdown)

end Section

namespace Docstring

def notesMarkdown (notes : Table String) : String :=
  String.join ((Text.sortOn Prod.fst notes.toList).map fun (target, text) =>
    "\n\n#### " ++ target ++ " compatibility\n" ++ text ++ "\n")

theorem notesMarkdown_empty : notesMarkdown .empty = "" := by
  simp [notesMarkdown, Text.sortOn, Table.toList, Table.empty]

def markdown (doc : Docstring) : String :=
  doc.body ++ Section.listMarkdown doc.sections ++ notesMarkdown doc.notes

end Docstring

namespace Member

def sort (members : List Member) : List Member := Text.sortOn Member.shortName members

def heading (m : Member) (suffix : String) : String :=
  "<h3 id=\"" ++ m.shortName ++ "\"><code>" ++ m.shortName ++ suffix ++ "</code></h3>\n\n"

def classLink (m : Member) : String :=
  "[`class " ++ m.shortName ++ "`](" ++ m.url?.getD "" ++ ")\n\n"

def entry (m : Member) (suffix : String) : String := m.heading suffix ++ m.doc.markdown ++ "\n\n"

def moduleLine (m : Member) : String :=
  if m.linked then
    let text := match m.kind with
      | .cls => "class " ++ m.shortName
      | .function => m.shortName ++ "(...)"
      | _ => m.shortName
    let suffix := if m.kind = .module then " module" else ""
    let brief := if m.doc.brief = "" then "" else ": " ++ m.doc.brief
    "[`" ++ text ++ "`](" ++ m.url?.getD "" ++ ")" ++ suffix ++ brief
  else "Constant " ++ m.shortName

end Member

namespace ClassMembers

/-- A section of a class page; one without members is left out. -/
def sectionMarkdown (title : String) (entries : List String) (ending : String) : String :=
  if entries.isEmpty then "" else "## " ++ title ++ String.join entries ++ ending

def markdown (ms : ClassMembers) : String :=
  sectionMarkdown "Child Classes\n" (Text.sort (ms.classes.map Member.classLink)) "" ++
  sectionMarkdown "Properties\n\n" ((Member.sort ms.properties).map (·.entry "")) "\n\n" ++
  sectionMarkdown "Methods\n\n"
    ((Member.sort ms.methods).map fun m => m.entry (m.signature?.getD "")) "\n\n" ++
  sectionMarkdown "Class Members\n\n" ((Member.sort ms.others).map (·.heading "")) ""

end ClassMembers

namespace Page

def aliasLine (body : PageBody) (name : String) : String :=
  match body with
  | .function signature => "### `" ++ name ++ signature ++ "`\n"
  | .cls _ => "### `class " ++ name ++ "`\n"
  | .module _ => "### Module `" ++ name ++ "`\n"

def title (p : Page) : String :=
  match p.body with
  | .function signature => "# " ++ p.fullName ++ signature
  | .cls _ => "# " ++ p.fullName
  | .module _ => "# Module: " ++ p.fullName

def head (p : Page) : String :=
  p.title ++ "\n\n" ++
    (if p.aliases.isEmpty then "" else String.join (p.aliases.map (aliasLine p.body)) ++ "\n") ++
    (match p.definedIn? with
      | none => ""
      | some l => "\n\n" ++ l.markdown)

/-- A module page shows the docstring as plain text, without guides. -/
def markdown (p : Page) : String :=
  match p.body with
  | .function _ => p.head ++ p.guides ++ p.doc.markdown
  | .cls members => p.head ++ p.guides ++ p.doc.markdown ++ "\n\n" ++ members.markdown
  | .module members =>
    p.head ++ p.doc.body ++ "\n\n## Members\n\n" ++
      String.intercalate "\n\n" (members.map Member.moduleLine)

variable {p : Page}

theorem markdown_function {signature : String} (h : p.body = .function signature) :
    p.markdown = p.head ++ p.guides ++ p.doc.markdown := by
  rw [markdown, h]

theorem markdown_cls {ms : ClassMembers} (h : p.body = .cls ms) :
    p.markdown = p.head ++ p.guides ++ p.doc.markdown ++ "\n\n" ++ ms.markdown := by
  rw [markdown, h]

theorem markdown_module {ms : List Member} (h : p.body = .module ms) :
    p.markdown = p.head ++ p.doc.body ++ "\n\n## Members\n\n" ++
      String.intercalate "\n\n" (ms.map Member.moduleLine) := by
  rw [markdown, h]

theorem head_cls {ms ms' : ClassMembers} (h : p.body = .cls ms) :
    head { p with body := .cls ms' } = p.head := by
  simp only [head, title, h]
  rfl

theorem head_module {ms ms' : List Member} (h : p.body = .module ms) :
    head { p with body := .module ms' } = p.head := by
  simp only [head, title, h]
  rfl

end Page

end RefDoc
