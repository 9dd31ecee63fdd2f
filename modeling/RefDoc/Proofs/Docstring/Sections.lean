import Mathlib.Data.List.Forall2
import RefDoc.Proofs.Docstring.Invariant

namespace RefDoc.Docstring

/-- Lines cut at every line that carries a mark. -/
inductive Cut {α : Type} (Mark : String → α → Prop) :
    List String → List String → List (α × List String) → Prop
  | nil : Cut Mark [] [] []
  | plain {line : String} {rest front : List String} {parts : List (α × List String)}
    (hl : ∀ a, ¬ Mark line a) (hr : Cut Mark rest front parts) :
    Cut Mark (line :: rest) (line :: front) parts
  | marked {line : String} {a : α} {rest front : List String} {parts : List (α × List String)}
    (hl : Mark line a) (hr : Cut Mark rest front parts) :
    Cut Mark (line :: rest) [] ((a, front) :: parts)

def Titles (keywords : Option (List String)) (line word : String) : Prop :=
  Line.Heads line word ∧ ∀ words, keywords = some words → word ∈ words

def StartsItem (indent line : String) (item : Item) : Prop :=
  Line.Itemizes indent line item.name item.description

def textIndent (lines : List String) : String :=
  ((lines.find? (! Line.isBlank ·)).map Line.indent).getD ""

def itemOf (part : Item × List String) : Item where
  name := part.1.name
  description := part.1.description ++ String.join part.2

/-- A section as it comes from its word and its lines; without an indent it has no items. -/
structure SectionOf (word : String) (lines : List String) (s : Section) : Prop where
  keyword : s.keyword = word
  indent : s.indent = textIndent lines
  flat : s.indent = "" → s.header = String.join lines ∧ s.items = []
  itemized : s.indent ≠ "" → ∃ front parts, Cut (StartsItem s.indent) lines front parts ∧
    s.header = String.join front ∧ s.items = parts.map itemOf

/-- A body and sections as they come from the lines of a text. The first line is always body. -/
def Segments (keywords : Option (List String)) (lines : List String) (body : String)
    (sections : List Section) : Prop :=
  ∃ front parts, Cut (Titles keywords) (lines.drop 1) front parts ∧
    body = String.join (lines.take 1 ++ front) ∧
    List.Forall₂ (fun part s => SectionOf part.1 part.2 s) parts sections

section

variable {α : Type} {Mark : String → α → Prop} {lines front front' : List String}
  {parts parts' : List (α × List String)}

theorem exists_cut (Mark : String → α → Prop) (lines : List String) :
    ∃ front parts, Cut Mark lines front parts := by
  induction lines with
  | nil => exact ⟨[], [], .nil⟩
  | cons line rest ih =>
    obtain ⟨front, parts, hr⟩ := ih
    by_cases hl : ∃ a, Mark line a
    · obtain ⟨a, ha⟩ := hl
      exact ⟨[], (a, front) :: parts, .marked ha hr⟩
    · exact ⟨line :: front, parts, .plain (not_exists.mp hl) hr⟩

theorem Cut.unique (h : Cut Mark lines front parts) (h' : Cut Mark lines front' parts')
    (hM : ∀ line a b, Mark line a → Mark line b → a = b) : front = front' ∧ parts = parts' := by
  induction h generalizing front' parts' with
  | nil =>
    cases h'
    exact ⟨rfl, rfl⟩
  | plain hl hr ih =>
    cases h' with
    | plain hl' hr' =>
      obtain ⟨rfl, rfl⟩ := ih hr'
      exact ⟨rfl, rfl⟩
    | marked hl' hr' => exact absurd hl' (hl _)
  | marked hl hr ih =>
    cases h' with
    | plain hl' hr' => exact absurd hl (hl' _)
    | marked hl' hr' =>
      obtain ⟨rfl, rfl⟩ := ih hr'
      rw [hM _ _ _ hl hl']
      exact ⟨rfl, rfl⟩

end

variable {keywords : Option (List String)} {line word indent : String}
  {lines rest front : List String}

theorem keyword?_eq_some_iff :
    Line.keyword? keywords line = some word ↔ Titles keywords line word := by
  rw [Line.keyword?, Option.filter_eq_some_iff, Line.header?_eq_some_iff]
  refine and_congr_right fun _ => ?_
  cases keywords with
  | none => simp [Line.accepts]
  | some words => simp [Line.accepts]

theorem keyword?_eq_none_iff :
    Line.keyword? keywords line = none ↔ ∀ word, ¬ Titles keywords line word := by
  simp only [Option.eq_none_iff_forall_not_mem, Option.mem_def, keyword?_eq_some_iff]

theorem Titles.unique {word' : String} (h : Titles keywords line word)
    (h' : Titles keywords line word') : word = word' := by
  rw [← keyword?_eq_some_iff] at h h'
  exact Option.some.inj (h.symm.trans h')

theorem StartsItem.unique {item item' : Item} (h : StartsItem indent line item)
    (h' : StartsItem indent line item') : item = item' := by
  rw [StartsItem, ← Line.item?_eq_some_iff] at h h'
  obtain ⟨name, description⟩ := item
  obtain ⟨name', description'⟩ := item'
  cases h.symm.trans h'
  rfl

theorem SectionOf.unique {s s' : Section} (h : SectionOf word lines s)
    (h' : SectionOf word lines s') : s = s' := by
  obtain ⟨keyword, header, indent, items⟩ := s
  obtain ⟨keyword', header', indent', items'⟩ := s'
  obtain ⟨rfl, rfl, hflat, hitems⟩ := h
  obtain ⟨rfl, rfl, hflat', hitems'⟩ := h'
  dsimp only at hflat hitems hflat' hitems'
  by_cases hn : textIndent lines = ""
  · obtain ⟨rfl, rfl⟩ := hflat hn
    obtain ⟨rfl, rfl⟩ := hflat' hn
    rfl
  · obtain ⟨front, parts, hc, rfl, rfl⟩ := hitems hn
    obtain ⟨front', parts', hc', rfl, rfl⟩ := hitems' hn
    obtain ⟨rfl, rfl⟩ := hc.unique hc' fun _ _ _ => StartsItem.unique
    rfl

theorem Segments.unique {body body' : String} {sections sections' : List Section}
    (h : Segments keywords lines body sections) (h' : Segments keywords lines body' sections') :
    body = body' ∧ sections = sections' := by
  obtain ⟨front, parts, hc, rfl, hs⟩ := h
  obtain ⟨front', parts', hc', rfl, hs'⟩ := h'
  obtain ⟨rfl, rfl⟩ := hc.unique hc' fun _ _ _ => Titles.unique
  have hR : Relator.RightUnique fun (part : String × List String) s => SectionOf part.1 part.2 s :=
    fun _ _ _ => SectionOf.unique
  exact ⟨rfl, hR.forall₂ hs hs'⟩

theorem Titles.not_isBlank (h : Titles keywords line word) : Line.isBlank line = false := by
  obtain ⟨⟨rfl, -⟩, -⟩ := h
  rw [Line.isBlank, List.all_eq_false]
  exact ⟨':', by simp [String.toList_append], by decide⟩

theorem itemIndent_of_titles (h : Titles keywords line word) (rest : List String) :
    itemIndent keywords (line :: rest) = "" := by
  rw [itemIndent, keyword?_eq_some_iff.mpr h]
  rfl

theorem itemIndent_of_isBlank (h : Line.isBlank line = true) (rest : List String) :
    itemIndent keywords (line :: rest) = itemIndent keywords rest := by
  have hl : ∀ word, ¬ Titles keywords line word := fun word ht => by
    rw [ht.not_isBlank] at h
    cases h
  rw [itemIndent, keyword?_eq_none_iff.mpr hl, h]
  rfl

theorem itemIndent_of_not_isBlank (hl : ∀ word, ¬ Titles keywords line word)
    (h : Line.isBlank line = false) (rest : List String) :
    itemIndent keywords (line :: rest) = Line.indent line := by
  rw [itemIndent, keyword?_eq_none_iff.mpr hl, h]
  rfl

theorem itemIndent_of_cut {parts : List (String × List String)}
    (h : Cut (Titles keywords) lines front parts) :
    itemIndent keywords lines = textIndent front := by
  induction h with
  | nil => rfl
  | @plain line rest front parts hl hr ih =>
    rw [textIndent, List.find?_cons]
    cases hb : Line.isBlank line with
    | true => exact (itemIndent_of_isBlank hb rest).trans ih
    | false => exact itemIndent_of_not_isBlank hl hb rest
  | marked hl hr ih => exact itemIndent_of_titles hl _

def grow (s : Section) (line : String) : Section :=
  match if s.indent = "" then none else Line.item? s.indent line, s.items with
  | some (name, description), items => { s with items := ⟨name, description⟩ :: items }
  | none, [] => { s with header := s.header ++ line }
  | none, item :: items =>
    { s with items := { item with description := item.description ++ line } :: items }

def grown (word : String) (lines : List String) : Section :=
  lines.foldl grow ⟨word, "", textIndent lines, []⟩

section

variable {parts : List (Item × List String)}

theorem item?_eq_none_iff :
    Line.item? indent line = none ↔ ∀ item, ¬ StartsItem indent line item := by
  rw [Option.eq_none_iff_forall_not_mem]
  constructor
  · intro h item hi
    exact h _ (Line.item?_eq_some_iff.mpr hi)
  · intro h entry he
    exact h ⟨entry.1, entry.2⟩ (Line.item?_eq_some_iff.mp he)

theorem foldl_grow_flat (word header : String) (lines : List String) :
    lines.foldl grow ⟨word, header, "", []⟩ = ⟨word, header ++ String.join lines, "", []⟩ := by
  induction lines generalizing header with
  | nil => simp
  | cons line rest ih =>
    have hg : grow ⟨word, header, "", []⟩ line = ⟨word, header ++ line, "", []⟩ := rfl
    rw [List.foldl_cons, hg, ih, String.join_cons, String.append_assoc]

theorem foldl_grow_item (hc : Cut (StartsItem indent) lines front parts) (hn : indent ≠ "")
    (word header : String) (item : Item) (items : List Item) :
    lines.foldl grow ⟨word, header, indent, item :: items⟩ =
      ⟨word, header, indent, (parts.map itemOf).reverse ++ itemOf (item, front) :: items⟩ := by
  induction hc generalizing item items with
  | nil => simp [itemOf]
  | @plain line rest front parts hl hr ih =>
    have hg : grow ⟨word, header, indent, item :: items⟩ line =
        ⟨word, header, indent, ⟨item.name, item.description ++ line⟩ :: items⟩ := by
      simp only [grow, if_neg hn, item?_eq_none_iff.mpr hl]
    rw [List.foldl_cons, hg, ih, itemOf, itemOf, String.join_cons, String.append_assoc]
  | @marked line first rest front parts hl hr ih =>
    have hg : grow ⟨word, header, indent, item :: items⟩ line =
        ⟨word, header, indent, first :: item :: items⟩ := by
      simp only [grow, if_neg hn, Line.item?_eq_some_iff.mpr hl]
    rw [List.foldl_cons, hg, ih]
    simp [itemOf]

theorem foldl_grow_header (hc : Cut (StartsItem indent) lines front parts) (hn : indent ≠ "")
    (word header : String) :
    lines.foldl grow ⟨word, header, indent, []⟩ =
      ⟨word, header ++ String.join front, indent, (parts.map itemOf).reverse⟩ := by
  induction hc generalizing header with
  | nil => simp
  | @plain line rest front parts hl hr ih =>
    have hg : grow ⟨word, header, indent, []⟩ line = ⟨word, header ++ line, indent, []⟩ := by
      simp only [grow, if_neg hn, item?_eq_none_iff.mpr hl]
    rw [List.foldl_cons, hg, ih, String.join_cons, String.append_assoc]
  | @marked line first rest front parts hl hr ih =>
    have hg : grow ⟨word, header, indent, []⟩ line = ⟨word, header, indent, [first]⟩ := by
      simp only [grow, if_neg hn, Line.item?_eq_some_iff.mpr hl]
    rw [List.foldl_cons, hg, foldl_grow_item hr hn]
    simp

theorem sectionOf_grown (word : String) (lines : List String) :
    SectionOf word lines { grown word lines with items := (grown word lines).items.reverse } := by
  by_cases hn : textIndent lines = ""
  · rw [grown, hn, foldl_grow_flat]
    exact ⟨rfl, hn.symm, fun _ => ⟨String.empty_append, rfl⟩, fun h => absurd rfl h⟩
  · obtain ⟨front, parts, hc⟩ := exists_cut (StartsItem (textIndent lines)) lines
    rw [grown, foldl_grow_header hc hn]
    exact ⟨rfl, rfl, fun h => absurd h hn, fun _ =>
      ⟨front, parts, hc, String.empty_append, List.reverse_reverse _⟩⟩

end

namespace Machine

variable {m : Machine} {part : Part} {s : Section} {older : List Section}
  {parts : List (String × List String)}

theorem inPart_of_titles (h : Titles keywords line word) (m : Machine) (part : Part)
    (rest : List String) :
    m.inPart keywords part line rest = m.openSection word (itemIndent keywords rest) := by
  unfold inPart
  rw [keyword?_eq_some_iff.mpr h]

theorem inPart_body (hl : ∀ word, ¬ Titles keywords line word) (m : Machine) (rest : List String) :
    m.inPart keywords .body line rest = m.add .body line := by
  unfold inPart
  rw [keyword?_eq_none_iff.mpr hl]

theorem inPart_section (hm : m.mode = .within part) (ho : Open m.sections part)
    (hs : m.sections = s :: older) (hl : ∀ word, ¬ Titles keywords line word)
    (rest : List String) :
    ∃ part', m.inPart keywords part line rest =
      { m with mode := .within part', sections := grow s line :: older } := by
  unfold inPart
  rw [keyword?_eq_none_iff.mpr hl]
  cases part with
  | body => cases hs.symm.trans ho
  | header =>
    obtain ⟨_, _, hs', hi⟩ := ho
    cases hs.symm.trans hs'
    simp only [Machine.item?, hs, grow, hi]
    cases if s.indent = "" then none else Line.item? s.indent line with
    | none => exact ⟨.header, by simp [add, hs, hi, hm]⟩
    | some entry => exact ⟨.item, by simp [openItem, hs, hi]⟩
  | item =>
    obtain ⟨_, _, hs', -, hi⟩ := ho
    cases hs.symm.trans hs'
    obtain ⟨item, items, hi⟩ := List.exists_cons_of_ne_nil hi
    simp only [Machine.item?, hs, grow, hi]
    cases if s.indent = "" then none else Line.item? s.indent line with
    | none => exact ⟨.item, by simp [add, hs, hi, hm]⟩
    | some entry => exact ⟨.item, by simp [openItem, hs, hi]⟩

theorem run_section (hc : Cut (Titles keywords) lines front parts) (hb : Blockless lines)
    (hm : m.mode = .within part) (ho : Open m.sections part) (hs : m.sections = s :: older) :
    (m.run keywords lines).body = m.body ∧
      (m.run keywords lines).sections =
        (parts.map fun part => grown part.1 part.2).reverse ++ front.foldl grow s :: older := by
  induction hc generalizing m part s older with
  | nil => exact ⟨rfl, hs⟩
  | @plain line rest front parts hl hr ih =>
    obtain ⟨part', he⟩ := inPart_section hm ho hs hl rest
    rw [← step_eq_inPart hm hb.block?_eq_none] at he
    have hv : m.Valid (line :: rest) := by rwa [Valid, hm]
    have hv' : (m.step keywords line rest).Valid rest := hv.step
    rw [he] at hv'
    rw [run, he]
    exact ih (List.Pairwise.of_cons hb) rfl hv' rfl
  | @marked line word rest front parts hl hr ih =>
    have hm' : (m.openSection word (textIndent front)).mode = .within .header := rfl
    obtain ⟨hbody, hsections⟩ := ih (List.Pairwise.of_cons hb) hm' ⟨_, _, rfl, rfl⟩ rfl
    rw [run, step_eq_inPart hm hb.block?_eq_none, inPart_of_titles hl, itemIndent_of_cut hr, hbody,
      hsections]
    exact ⟨rfl, by simp [grown, hs]⟩

theorem run_body (hc : Cut (Titles keywords) lines front parts) (hb : Blockless lines)
    (hm : m.mode = .within .body) (hs : m.sections = []) :
    (m.run keywords lines).body = m.body ++ String.join front ∧
      (m.run keywords lines).sections = (parts.map fun part => grown part.1 part.2).reverse := by
  induction hc generalizing m with
  | nil => exact ⟨by simp [run], hs⟩
  | @plain line rest front parts hl hr ih =>
    obtain ⟨hbody, hsections⟩ := ih (List.Pairwise.of_cons hb) (m := m.add .body line) hm hs
    rw [run, step_eq_inPart hm hb.block?_eq_none, inPart_body hl, hbody, hsections,
      String.join_cons]
    exact ⟨String.append_assoc, rfl⟩
  | @marked line word rest front parts hl hr ih =>
    have hm' : (m.openSection word (textIndent front)).mode = .within .header := rfl
    obtain ⟨hbody, hsections⟩ :=
      run_section hr (List.Pairwise.of_cons hb) hm' ⟨_, _, rfl, rfl⟩ rfl
    rw [run, step_eq_inPart hm hb.block?_eq_none, inPart_of_titles hl, itemIndent_of_cut hr, hbody,
      hsections]
    exact ⟨by simp [openSection], by simp [grown, hs]⟩

end Machine

theorem segments_ofText {text : String} (keywords : Option (List String))
    (h : Blockless ((Text.lines text).drop 1)) :
    Segments keywords (Text.lines text) (ofText text keywords).body
      (ofText text keywords).sections := by
  obtain ⟨front, parts, hc⟩ := exists_cut (Titles keywords) ((Text.lines text).drop 1)
  refine ⟨front, parts, hc, ?_⟩
  rw [ofText]
  cases hl : Text.lines text with
  | nil =>
    rw [hl] at hc
    cases hc
    exact ⟨rfl, .nil⟩
  | cons first rest =>
    rw [hl, List.drop_one, List.tail_cons] at hc h
    obtain ⟨hbody, hsections⟩ :=
      Machine.run_body hc h (m := Machine.start.step keywords first rest) rfl rfl
    simp only [Machine.run, Machine.result, hbody, hsections]
    refine ⟨by simp [Machine.step, Machine.start, Machine.add], ?_⟩
    simp only [List.map_reverse, List.reverse_reverse, List.map_map, List.forall₂_map_right_iff,
      List.forall₂_same]
    exact fun part _ => sectionOf_grown part.1 part.2

/-- A text without blocks is cut into body and sections in exactly one way. -/
theorem segments_iff {text : String} (keywords : Option (List String))
    (h : Blockless ((Text.lines text).drop 1)) (body : String) (sections : List Section) :
    Segments keywords (Text.lines text) body sections ↔
      (ofText text keywords).body = body ∧ (ofText text keywords).sections = sections := by
  constructor
  · exact (segments_ofText keywords h).unique
  · rintro ⟨rfl, rfl⟩
    exact segments_ofText keywords h

theorem segments_unclosed :
    let text := "Adds.\nReturns:\nArgs:\n\n\tx: one\n\t y: two\n\t*z:\n@compatibility(np)\nRaises:"
    Blockless ((Text.lines text).drop 1) ∧
      Segments none (Text.lines text) "Adds.\n" [⟨"Returns", "", "", []⟩,
        ⟨"Args", "\n", "\t",
          [⟨"x", " one\n\t y: two\n"⟩, ⟨"*z", "\n@compatibility(np)\nRaises:"⟩]⟩] := by
  intro text
  have hl : Text.lines text = ["Adds.\n", "Returns:\n", "Args:\n", "\n", "\tx: one\n",
      "\t y: two\n", "\t*z:\n", "@compatibility(np)\n", "Raises:"] := by
    decide +kernel
  have h : Blockless ((Text.lines text).drop 1) := by
    rw [hl]
    decide +kernel
  refine ⟨h, (segments_iff none h _ _).mpr ?_⟩
  rw [ofText, hl]
  decide +kernel

end RefDoc.Docstring
