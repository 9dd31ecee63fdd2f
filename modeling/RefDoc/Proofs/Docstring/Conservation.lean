import RefDoc.Proofs.Docstring.Invariant
import RefDoc.Proofs.Text.Lines

namespace RefDoc.Docstring

/-- A docstring written out: the body, then the sections. -/
def source (doc : Docstring) : String := doc.body ++ String.join (doc.sections.map Section.source)

namespace Machine

variable {keywords : Option (List String)} {m m' : Machine} {line : String} {rest : List String}

def sectionSource (s : Section) : String := Section.source { s with items := s.items.reverse }

theorem source_result (m : Machine) :
    m.result.source = m.body ++ String.join (m.sections.reverse.map sectionSource) := by
  simp only [source, result, ← List.map_reverse, List.map_map, Function.comp_def]
  rfl

theorem source_add {part : Part} (h : Open m.sections part) (text : String) :
    (m.add part text).result.source = m.result.source ++ text := by
  rw [source_result, source_result]
  cases part with
  | body =>
    have hs : m.sections = [] := h
    simp [Machine.add, hs]
  | header =>
    obtain ⟨s, older, hs, hi⟩ := h
    simp [Machine.add, hs, sectionSource, Section.source, hi, String.append_assoc]
  | item =>
    obtain ⟨s, older, hs, -, hi⟩ := h
    obtain ⟨item, items, he⟩ := List.exists_cons_of_ne_nil hi
    simp [Machine.add, hs, sectionSource, Section.source, Section.itemSource, he,
      String.append_assoc]

theorem source_openSection (m : Machine) (keyword indent : String) :
    (m.openSection keyword indent).result.source = m.result.source ++ (keyword ++ ":\n") := by
  rw [source_result, source_result]
  simp [openSection, sectionSource, Section.source, String.append_assoc]

theorem source_openItem {s : Section} {older : List Section} (hs : m.sections = s :: older)
    (name description : String) :
    (m.openItem name description).result.source =
      m.result.source ++ (s.indent ++ name ++ ":" ++ description) := by
  rw [source_result, source_result]
  simp [openItem, hs, sectionSource, Section.source, Section.itemSource, String.append_assoc]

/-- What the lines to come still add to the docstring. -/
def pending (m : Machine) (lines : List String) : List String :=
  match m.mode with
  | .fresh => lines.take 1 ++ excise (lines.drop 1)
  | .within _ => excise lines
  | .block b =>
    match lines.drop b.linesLeft with
    | [] => []
    | last :: after => Line.remains last :: excise after

/-- A step moves text from the lines to come into the docstring. -/
theorem source_of_step (hv : m.Valid (line :: rest)) (hs : Step keywords m line rest m') :
    m'.result.source ++ String.join (m'.pending rest) =
      m.result.source ++ String.join (m.pending (line :: rest)) := by
  cases hs with
  | first hm =>
    rw [Valid, hm] at hv
    have ha : (m.add .body line).result.source = m.result.source ++ line := source_add hv line
    change (m.add .body line).result.source ++ String.join (excise rest) = _
    simp [pending, hm, ha, String.append_assoc]
  -- What stands behind the mark of a block is all of the block that the source keeps.
  | @closing b hm hb =>
    simp only [Valid, hm, hb, List.findIdx?_cons] at hv
    obtain ⟨ho, hf⟩ := hv
    have hc : Line.closesBlock line = true := by
      split at hf
      · assumption
      · simp at hf
    obtain ⟨text, ht⟩ := Line.closesBlock_iff.mp hc
    have hn : (m.note b.target b.content).result.source = m.result.source := by
      simp [source_result]
    have ha := source_add (m := m.note b.target b.content) (by simpa using ho) text
    change ((m.note b.target b.content).add b.interrupted
      ((Line.afterBlock? line).getD line)).result.source ++ String.join (excise rest) = _
    rw [Line.afterBlock?_eq_some_iff.mpr ht, Option.getD_some, ha, hn]
    simp [pending, hm, hb, ht.remains_eq, String.append_assoc]
  | content hm hb =>
    change m.result.source ++ _ = _
    simp only [pending, hm, hb, List.drop_succ_cons]
  | opening hm hb =>
    obtain ⟨last, after, hd, he⟩ := excise_of_block? hb
    change m.result.source ++ _ = _
    simp only [pending, openBlock, hm, hd, he]
  | @heading _ keyword hm hb hk =>
    have hl : line = keyword ++ ":\n" := (heads_of_keyword? hk).1
    change _ ++ String.join (excise rest) = _
    rw [source_openSection, ← hl]
    simp [pending, hm, excise_of_not_block? hb, String.append_assoc]
  | @item _ name description hm hb hk hp hi =>
    obtain ⟨s, older, hs, -, -, -, -, -, -, hl⟩ := exists_of_item? hi
    change _ ++ String.join (excise rest) = _
    rw [source_openItem hs, ← hl]
    simp [pending, hm, excise_of_not_block? hb, String.append_assoc]
  | @text part hm hb hk hi =>
    rw [Valid, hm] at hv
    have hp : (m.add part line).pending rest = excise rest := by simp [pending, hm]
    rw [hp, source_add hv]
    simp [pending, hm, excise_of_not_block? hb, String.append_assoc]

theorem source_run {lines : List String} (hv : m.Valid lines) :
    (m.run keywords lines).result.source = m.result.source ++ String.join (m.pending lines) := by
  induction lines generalizing m with
  | nil =>
    have hp : m.pending [] = [] := by
      rw [pending]
      split <;> simp [excise]
    rw [run, hp, String.join_nil, String.append_empty]
  | cons line rest ih =>
    rw [run, ih hv.step]
    exact source_of_step hv (step_spec keywords m line rest)

theorem body_add (m : Machine) (part : Part) (text : String) :
    ∃ more, (m.add part text).body = m.body ++ more := by
  cases part with
  | body => exact ⟨text, rfl⟩
  | header | item => exact ⟨"", String.append_empty.symm⟩

theorem body_of_step (hs : Step keywords m line rest m') : ∃ more, m'.body = m.body ++ more := by
  cases hs with
  | first hm => exact body_add m .body line
  | @closing b hm hb =>
    obtain ⟨more, hb⟩ := body_add (m.note b.target b.content) b.interrupted
      ((Line.afterBlock? line).getD line)
    exact ⟨more, hb.trans (by rw [note_body])⟩
  | content | opening | heading | item => exact ⟨"", String.append_empty.symm⟩
  | text hm hb hk hi => exact body_add m _ line

theorem body_run (keywords : Option (List String)) (m : Machine) (lines : List String) :
    ∃ more, (m.run keywords lines).body = m.body ++ more := by
  induction lines generalizing m with
  | nil => exact ⟨"", String.append_empty.symm⟩
  | cons line rest ih =>
    obtain ⟨more, hm⟩ := body_of_step (step_spec keywords m line rest)
    obtain ⟨more', hr⟩ := ih (m.step keywords line rest)
    exact ⟨more ++ more', by rw [run, hr, hm, String.append_assoc]⟩

end Machine

variable {text first : String} {rest : List String}

theorem brief_of_lines_cons (keywords : Option (List String))
    (h : Text.lines text = first :: rest) :
    ∃ more, (ofText text keywords).brief = Text.firstLine (first ++ more) ∧
      (rest = [] → more = "") := by
  rw [ofText, h, Machine.run]
  obtain ⟨more, hm⟩ := Machine.body_run keywords (Machine.start.step keywords first rest) rest
  have hf : (Machine.start.step keywords first rest).body = first := String.empty_append
  cases rest with
  | nil => exact ⟨"", by rw [Machine.run, Machine.result, hf, String.append_empty], fun _ => rfl⟩
  | cons second rest => exact ⟨more, by rw [Machine.result, hm, hf], nofun⟩

theorem brief_ofText (text : String) (keywords : Option (List String)) :
    '\n' ∉ (ofText text keywords).brief.toList ∧
      (text = (ofText text keywords).brief ∨
        ∃ after, text = (ofText text keywords).brief ++ "\n" ++ after) := by
  obtain hn | ⟨-, hm, hs⟩ | ⟨line, rest, hm, ht, hs⟩ := Text.splitLines_cases text.toList
  · have ht : text = "" := String.toList_eq_nil_iff.mp hn
    have hl : Text.lines text = [] := by rw [ht]; rfl
    have hb : (ofText text keywords).brief = "" := by rw [ofText, hl]; rfl
    rw [hb, ht]
    exact ⟨List.not_mem_nil, .inl rfl⟩
  · have hl : Text.lines text = [text] := by
      rw [Text.lines, hs, List.map_singleton, String.ofList_toList]
    obtain ⟨more, hb, hr⟩ := brief_of_lines_cons keywords hl
    rw [hb, hr rfl, String.append_empty, Text.firstLine, Text.takeWhile_of_not_mem hm,
      String.ofList_toList]
    exact ⟨hm, .inl rfl⟩
  · have hl : Text.lines text =
        String.ofList (line ++ ['\n']) :: (Text.splitLines rest).map String.ofList := by
      rw [Text.lines, hs, List.map_cons]
    obtain ⟨more, hb, -⟩ := brief_of_lines_cons keywords hl
    have hb' : (ofText text keywords).brief = String.ofList line := by
      rw [hb, Text.firstLine]
      simp [String.toList_append, Text.takeWhile_append_newline hm]
    rw [hb', String.toList_ofList]
    refine ⟨hm, .inr ⟨String.ofList rest, String.toList_inj.mp ?_⟩⟩
    simp [String.toList_append, ht]

/-- A docstring written out is its text without the complete blocks. -/
theorem source_ofText (text : String) (keywords : Option (List String)) :
    (ofText text keywords).source = excised text ∧
      ('\n' ∉ (ofText text keywords).brief.toList ∧
        (text = (ofText text keywords).brief ∨
          ∃ after, text = (ofText text keywords).brief ++ "\n" ++ after)) ∧
      (Blockless ((Text.lines text).drop 1) → (ofText text keywords).source = text) := by
  have hs : (ofText text keywords).source = excised text := by
    rw [ofText, Machine.source_run (Machine.valid_start _)]
    simp [Machine.source_result, Machine.start, Machine.pending, excised]
  refine ⟨hs, brief_ofText text keywords, fun hb => ?_⟩
  rw [hs, excised, excise_of_blockless hb, List.take_append_drop, Text.join_lines]

theorem source_ofText_unclosed :
    Blockless ((Text.lines "Adds.\nArgs:\n  x: one\n@compatibility(np)\n  y: two").drop 1) ∧
      (ofText "Adds.\nArgs:\n  x: one\n@compatibility(np)\n  y: two" none).source =
        "Adds.\nArgs:\n  x: one\n@compatibility(np)\n  y: two" :=
  ⟨by decide, (source_ofText _ none).2.2 (by decide)⟩

end RefDoc.Docstring
