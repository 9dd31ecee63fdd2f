import RefDoc.Docstring.Basic
import RefDoc.Docstring.Line

namespace RefDoc.Docstring

inductive Part
  | body
  | header
  | item
  deriving Repr, DecidableEq

structure Block where
  target : String
  content : String
  /-- How many lines stand before the line that ends the block. -/
  linesLeft : Nat
  interrupted : Part
  deriving Repr, DecidableEq

inductive Mode
  | fresh
  | within (part : Part)
  | block (b : Block)
  deriving Repr, DecidableEq

/-- What has been read so far. The newest section and the newest item come first. -/
structure Machine where
  mode : Mode
  body : String
  sections : List Section
  notes : Table String
  deriving DecidableEq

def reservedTarget : String := "__proto__"

/-- The indent of the first line that is not blank, unless another section starts before it. -/
def itemIndent (keywords : Option (List String)) : List String → String
  | [] => ""
  | line :: rest =>
    if (Line.keyword? keywords line).isSome then ""
    else if Line.isBlank line then itemIndent keywords rest
    else Line.indent line

/-- The target of a block and the number of its lines. A block that nothing ends is none. -/
def block? (line : String) (rest : List String) : Option (String × Nat) :=
  match Line.blockTarget? line with
  | none => none
  | some target => (rest.findIdx? Line.closesBlock).map fun linesLeft => (target, linesLeft)

namespace Machine

def start : Machine := ⟨.fresh, "", [], .empty⟩

def add (m : Machine) (part : Part) (text : String) : Machine :=
  match part with
  | .body => { m with body := m.body ++ text }
  | .header =>
    { m with sections := m.sections.modifyHead fun s => { s with header := s.header ++ text } }
  | .item =>
    let extend (item : Item) : Item := { item with description := item.description ++ text }
    { m with
      sections := m.sections.modifyHead fun s => { s with items := s.items.modifyHead extend } }

def note (m : Machine) (target content : String) : Machine :=
  if target = reservedTarget then m else { m with notes := m.notes.insert target content }

/-- Blank lines in front are left out, and the interrupted part takes what follows the mark. -/
def inBlock (m : Machine) (b : Block) (line : String) : Machine :=
  match b.linesLeft with
  | 0 =>
    let closed := (m.note b.target b.content).add b.interrupted ((Line.afterBlock? line).getD line)
    { closed with mode := .within b.interrupted }
  | linesLeft + 1 =>
    let content := if b.content = "" ∧ Line.isBlank line then "" else b.content ++ line
    { m with mode := .block { b with content, linesLeft } }

def openBlock (m : Machine) (part : Part) (target : String) (linesLeft : Nat) : Machine :=
  { m with mode := .block ⟨target, "", linesLeft, part⟩ }

def openSection (m : Machine) (keyword indent : String) : Machine :=
  { m with mode := .within .header, sections := ⟨keyword, "", indent, []⟩ :: m.sections }

def openItem (m : Machine) (name description : String) : Machine :=
  { m with
    mode := .within .item
    sections := m.sections.modifyHead fun s => { s with items := ⟨name, description⟩ :: s.items } }

def item? (m : Machine) (line : String) : Option (String × String) :=
  match m.sections with
  | [] => none
  | s :: _ => if s.indent = "" then none else Line.item? s.indent line

def inPart (keywords : Option (List String)) (m : Machine) (part : Part) (line : String)
    (rest : List String) : Machine :=
  match Line.keyword? keywords line with
  | some keyword => m.openSection keyword (itemIndent keywords rest)
  | none =>
    match part with
    | .body => m.add .body line
    | part =>
      match m.item? line with
      | some (name, description) => m.openItem name description
      | none => m.add part line

/-- Reads one line; `rest` are the lines behind it. -/
def step (keywords : Option (List String)) (m : Machine) (line : String) (rest : List String) :
    Machine :=
  match m.mode with
  | .fresh => { m.add .body line with mode := .within .body }
  | .block b => m.inBlock b line
  | .within part =>
    match block? line rest with
    | some (target, linesLeft) => m.openBlock part target linesLeft
    | none => m.inPart keywords part line rest

def run (keywords : Option (List String)) (m : Machine) : List String → Machine
  | [] => m
  | line :: rest => run keywords (m.step keywords line rest) rest

def result (m : Machine) : Docstring where
  brief := Text.firstLine m.body
  body := m.body
  sections := (m.sections.map fun s => { s with items := s.items.reverse }).reverse
  notes := m.notes

end Machine

/-- The parts of a docstring. With a list of keywords only these head a section. -/
def ofText (text : String) (keywords : Option (List String)) : Docstring :=
  (Machine.start.run keywords (Text.lines text)).result

end RefDoc.Docstring
