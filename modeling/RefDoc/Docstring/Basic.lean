import RefDoc.Table.Basic
import RefDoc.Text.Lines

namespace RefDoc

structure Item where
  name : String
  description : String
  deriving Repr, DecidableEq, Inhabited

structure Section where
  keyword : String
  header : String
  /-- What every item line starts with; a section without an indent has no items. -/
  indent : String
  items : List Item
  deriving Repr, DecidableEq, Inhabited

structure Docstring where
  brief : String
  /-- Everything in front of the first section, the brief included. -/
  body : String
  sections : List Section
  notes : Table String
  deriving DecidableEq

namespace Section

def itemSource (indent : String) (item : Item) : String :=
  indent ++ item.name ++ ":" ++ item.description

def source (s : Section) : String :=
  s.keyword ++ ":\n" ++ s.header ++ String.join (s.items.map (itemSource s.indent))

end Section

end RefDoc
