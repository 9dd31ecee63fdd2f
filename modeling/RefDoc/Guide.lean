import RefDoc.Table.Basic
import RefDoc.Text.Order
import RefDoc.Url

namespace RefDoc

/-- A guide, or one section of it. An empty title or tag of a section counts as none. -/
structure Guide where
  title : String
  url : String
  sectionTitle? : Option String
  sectionTag? : Option String
  deriving Repr, DecidableEq, Inhabited

namespace Guide

def text (g : Guide) : String :=
  match g.sectionTitle? with
  | none => g.title
  | some heading => if heading = "" then g.title else g.title ++ " > " ++ heading

def anchor (g : Guide) : String :=
  match g.sectionTag? with
  | none => ""
  | some tag => if tag = "" then "" else "#" ++ tag

def link (root : String) (g : Guide) : String :=
  "[" ++ g.text ++ "](" ++ Url.document root g.url ++ g.anchor ++ ")"

def links (names : List String) (guides : Table (List Guide)) (root : String) : List String :=
  names.flatMap fun name => ((guides.find? name).getD []).map (link root)

/-- The line of guide links: each link once, in ascending order. -/
def line (names : List String) (guides : Table (List Guide)) (root : String) : String :=
  let shown := Text.sort (links names guides root).eraseDups
  if shown.isEmpty then ""
  else
    "See the guide" ++ (if shown.length = 1 then "" else "s") ++ ": " ++
      String.intercalate ", " shown ++ "\n\n"

end Guide

end RefDoc
