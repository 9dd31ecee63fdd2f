import RefDoc.Proofs.Docstring.Sections

namespace RefDoc.Docstring

inductive Role
  | text (line : String)
  | heading (keyword indent : String)
  | item (entry : Item)

/-- Whether lines have some roles, where items in front of the first heading have an indent. -/
inductive Reads (keywords : Option (List String)) : String → List String → List Role → Prop
  | nil {indent : String} : Reads keywords indent [] []
  | heading {indent line word : String} {rest front : List String}
    {parts : List (String × List String)} {roles : List Role} (hl : Titles keywords line word)
    (hc : Cut (Titles keywords) rest front parts)
    (hr : Reads keywords (textIndent front) rest roles) :
    Reads keywords indent (line :: rest) (.heading word (textIndent front) :: roles)
  | item {indent line : String} {entry : Item} {rest : List String} {roles : List Role}
    (hl : ∀ word, ¬ Titles keywords line word) (hn : indent ≠ "")
    (hi : StartsItem indent line entry)
    (hr : Reads keywords indent rest roles) :
    Reads keywords indent (line :: rest) (.item entry :: roles)
  | text {indent line : String} {rest : List String} {roles : List Role}
    (hl : ∀ word, ¬ Titles keywords line word)
    (hi : indent ≠ "" → ∀ entry, ¬ StartsItem indent line entry)
    (hr : Reads keywords indent rest roles) :
    Reads keywords indent (line :: rest) (.text line :: roles)

/-- What lines give from inside a part: more text, items behind it, and sections behind these. -/
structure Addition where
  text : String
  items : List Item
  sections : List Section

namespace Addition

def prepend (later : Addition) : Role → Addition
  | .text line => { later with text := line ++ later.text }
  | .item entry =>
    ⟨"", { entry with description := entry.description ++ later.text } :: later.items,
      later.sections⟩
  | .heading keyword indent =>
    ⟨"", [], ⟨keyword, later.text, indent, later.items⟩ :: later.sections⟩

def ofRoles : List Role → Addition
  | [] => ⟨"", [], []⟩
  | role :: roles => (ofRoles roles).prepend role

end Addition

variable {keywords : Option (List String)} {indent line header : String} {lines front : List String}
  {items : List Item} {entry : Item} {roles : List Role} {parts : List (String × List String)}

theorem exists_reads (keywords : Option (List String)) (indent : String) (lines : List String) :
    ∃ roles, Reads keywords indent lines roles := by
  induction lines generalizing indent with
  | nil => exact ⟨[], .nil⟩
  | cons line rest ih =>
    by_cases hl : ∃ word, Titles keywords line word
    · obtain ⟨word, hl⟩ := hl
      obtain ⟨front, parts, hc⟩ := exists_cut (Titles keywords) rest
      obtain ⟨roles, hr⟩ := ih (textIndent front)
      exact ⟨_, .heading hl hc hr⟩
    · have hl := not_exists.mp hl
      obtain ⟨roles, hr⟩ := ih indent
      by_cases hi : indent ≠ "" ∧ ∃ entry, StartsItem indent line entry
      · obtain ⟨hn, entry, hi⟩ := hi
        exact ⟨_, .item hl hn hi hr⟩
      · exact ⟨_, .text hl (fun hn entry he => hi ⟨hn, entry, he⟩) hr⟩

structure Fills (indent : String) (lines : List String) (header : String) (items : List Item) :
    Prop where
  flat : indent = "" → header = String.join lines ∧ items = []
  itemized : indent ≠ "" → ∃ front parts, Cut (StartsItem indent) lines front parts ∧
    header = String.join front ∧ items = parts.map itemOf

namespace Fills

theorem nil : Fills indent [] "" [] :=
  ⟨fun _ => ⟨rfl, rfl⟩, fun _ => ⟨[], [], .nil, rfl, rfl⟩⟩

theorem text (h : Fills indent lines header items)
    (hi : indent ≠ "" → ∀ entry, ¬ StartsItem indent line entry) :
    Fills indent (line :: lines) (line ++ header) items := by
  refine ⟨fun hn => ?_, fun hn => ?_⟩
  · obtain ⟨rfl, rfl⟩ := h.flat hn
    exact ⟨String.join_cons.symm, rfl⟩
  · obtain ⟨front, parts, hc, rfl, rfl⟩ := h.itemized hn
    exact ⟨line :: front, parts, .plain (hi hn) hc, String.join_cons.symm, rfl⟩

theorem item (h : Fills indent lines header items) (hn : indent ≠ "")
    (hi : StartsItem indent line entry) : Fills indent (line :: lines) ""
      ({ entry with description := entry.description ++ header } :: items) := by
  refine ⟨fun he => absurd he hn, fun hn => ?_⟩
  obtain ⟨front, parts, hc, rfl, rfl⟩ := h.itemized hn
  exact ⟨[], (entry, front) :: parts, .marked hi hc, rfl, rfl⟩

theorem sectionOf (h : Fills (textIndent lines) lines header items) (word : String) :
    SectionOf word lines ⟨word, header, textIndent lines, items⟩ :=
  ⟨rfl, rfl, h.flat, h.itemized⟩

end Fills

theorem Reads.fills (hr : Reads keywords indent lines roles)
    (hc : Cut (Titles keywords) lines front parts) :
    Fills indent front (Addition.ofRoles roles).text (Addition.ofRoles roles).items ∧
      List.Forall₂ (fun part s => SectionOf part.1 part.2 s) parts
        (Addition.ofRoles roles).sections := by
  induction hr generalizing front parts with
  | nil =>
    cases hc
    exact ⟨.nil, .nil⟩
  | heading hl hcut hr ih =>
    cases hc with
    | plain hn _ => exact absurd hl (hn _)
    | marked hl' hc =>
      obtain rfl := hl.unique hl'
      obtain ⟨rfl, rfl⟩ := hc.unique hcut fun _ _ _ => Titles.unique
      obtain ⟨hf, hs⟩ := ih hc
      exact ⟨.nil, .cons (hf.sectionOf _) hs⟩
  | item hl hn hi hr ih =>
    cases hc with
    | plain _ hc =>
      obtain ⟨hf, hs⟩ := ih hc
      exact ⟨hf.item hn hi, hs⟩
    | marked hl' _ => exact absurd hl' (hl _)
  | text hl hi hr ih =>
    cases hc with
    | plain _ hc =>
      obtain ⟨hf, hs⟩ := ih hc
      exact ⟨hf.text hi, hs⟩
    | marked hl' _ => exact absurd hl' (hl _)

/-- Where no block interrupts its lines, a docstring is put together from the roles of its lines. -/
theorem ofText_of_reads {text : String} (h : Blockless ((Text.lines text).drop 1))
    (hr : Reads keywords "" ((Text.lines text).drop 1) roles) :
    (ofText text keywords).body =
        String.join ((Text.lines text).take 1) ++ (Addition.ofRoles roles).text ∧
      (ofText text keywords).sections = (Addition.ofRoles roles).sections := by
  apply (segments_iff keywords h _ _).mp
  obtain ⟨front, parts, hc⟩ := exists_cut (Titles keywords) ((Text.lines text).drop 1)
  obtain ⟨hf, hs⟩ := hr.fills hc
  refine ⟨front, parts, hc, ?_, hs⟩
  rw [(hf.flat rfl).1, String.join_append]

end RefDoc.Docstring
