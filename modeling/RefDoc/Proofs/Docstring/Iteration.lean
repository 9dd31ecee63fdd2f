import RefDoc.Proofs.Docstring.Conservation
import RefDoc.Proofs.Docstring.Piece

namespace RefDoc.Docstring.Machine

/-- The machine in front of the line with index `i`. -/
def before (keywords : Option (List String)) (lines : List String) : Nat → Machine
  | 0 => start
  | i + 1 =>
    match lines.drop i with
    | [] => before keywords lines i
    | line :: rest => (before keywords lines i).step keywords line rest

/-- The part that takes the next text. -/
def part (m : Machine) : Part :=
  match m.mode with
  | .fresh => .body
  | .within part => part
  | .block b => b.interrupted

variable {keywords : Option (List String)} {m : Machine} {lines rest : List String} {line : String}
  {i opener : Nat} {b : Block}

theorem before_succ (hd : lines.drop i = line :: rest) :
    before keywords lines (i + 1) = (before keywords lines i).step keywords line rest := by
  rw [before, hd]

theorem before_succ_of_nil (hd : lines.drop i = []) :
    before keywords lines (i + 1) = before keywords lines i := by
  rw [before, hd]

theorem drop_succ_of_cons (hd : lines.drop i = line :: rest) : lines.drop (i + 1) = rest := by
  rw [← List.drop_drop, hd]
  rfl

theorem drop_succ_of_nil (hd : lines.drop i = []) : lines.drop (i + 1) = [] := by
  rw [← List.drop_drop, hd, List.drop_nil]

theorem run_before (keywords : Option (List String)) (lines : List String) (i : Nat) :
    (before keywords lines i).run keywords (lines.drop i) = start.run keywords lines := by
  induction i with
  | zero => rw [before, List.drop_zero]
  | succ i ih =>
    rw [← ih]
    cases hd : lines.drop i with
    | nil => rw [before_succ_of_nil hd, drop_succ_of_nil hd]
    | cons line rest => rw [before_succ hd, drop_succ_of_cons hd, run]

theorem valid_before (keywords : Option (List String)) (lines : List String) (i : Nat) :
    (before keywords lines i).Valid (lines.drop i) := by
  induction i with
  | zero => exact valid_start _
  | succ i ih =>
    cases hd : lines.drop i with
    | nil =>
      rw [hd] at ih
      rw [before_succ_of_nil hd, drop_succ_of_nil hd]
      exact ih
    | cons line rest =>
      rw [hd] at ih
      rw [before_succ hd, drop_succ_of_cons hd]
      exact ih.step

theorem Valid.opened (h : m.Valid lines) : Open m.sections m.part := by
  rw [part]
  rw [Valid] at h
  cases hm : m.mode with
  | fresh | within => simpa only [hm] using h
  | block b =>
    rw [hm] at h
    exact h.1

theorem findIdx?_of_block (hm : (before keywords lines i).mode = .block b) :
    (lines.drop i).findIdx? Line.closesBlock = some b.linesLeft := by
  have h := valid_before keywords lines i
  rw [Valid, hm] at h
  exact h.2

theorem exists_closer (hm : (before keywords lines i).mode = .block b) :
    ∃ last rest, lines[i + b.linesLeft]? = some last ∧ Line.Closes last rest := by
  obtain ⟨hlt, hc, -⟩ := List.findIdx?_eq_some_iff_getElem.mp (findIdx?_of_block hm)
  rw [List.length_drop] at hlt
  rw [List.getElem_drop] at hc
  obtain ⟨rest, hr⟩ := Line.closesBlock_iff.mp hc
  exact ⟨_, rest, List.getElem?_eq_getElem (by omega), hr⟩

/-- The line that closes a block is the first one to come that closes any. -/
theorem not_closes_of_lt (hm : (before keywords lines i).mode = .block b) {k : Nat} (hk : i ≤ k)
    (hkb : k < i + b.linesLeft) (hl : lines[k]? = some line) : ¬ ∃ rest, Line.Closes line rest := by
  obtain ⟨_, _, hn⟩ := List.findIdx?_eq_some_iff_getElem.mp (findIdx?_of_block hm)
  obtain ⟨_, rfl⟩ := List.getElem?_eq_some_iff.mp hl
  have hnk := hn (k - i) (by omega)
  simp only [List.getElem_drop, Nat.add_sub_cancel' hk] at hnk
  exact mt Line.closesBlock_iff.mpr hnk

theorem getElem?_of_drop (hd : lines.drop i = line :: rest) : lines[i]? = some line := by
  rw [← List.head?_drop, hd, List.head?_cons]

theorem step_content (keywords : Option (List String)) {linesLeft : Nat} (hm : m.mode = .block b)
    (hb : b.linesLeft = linesLeft + 1) (line : String) (rest : List String) :
    m.step keywords line rest =
      { m with mode := .block { b with content := gather b.content [line], linesLeft } } := by
  simp only [step, hm, inBlock, hb]
  rfl

theorem step_closing (keywords : Option (List String)) {text : String} (hm : m.mode = .block b)
    (hb : b.linesLeft = 0) (hc : Line.Closes line text) (rest : List String) :
    m.step keywords line rest = { (m.note b.target b.content).add b.interrupted text with
      mode := .within b.interrupted } := by
  simp only [step, hm, inBlock, hb, Line.afterBlock?_eq_some_iff.mpr hc, Option.getD_some]

/-- A block since the line with index `opener`; nothing but its content has changed since then. -/
structure OpenSince (keywords : Option (List String)) (lines : List String) (opener i : Nat)
    (b : Block) : Prop where
  lt : opener < i
  opens : ∃ line, lines[opener]? = some line ∧ Line.Opens line b.target
  within : (before keywords lines opener).mode = .within b.interrupted
  frozen : before keywords lines i = { before keywords lines opener with mode := .block b }
  content : b.content = String.join (((lines.take i).drop (opener + 1)).dropWhile Line.isBlank)
  unclosed : ∀ k, opener < k → k < i → ∀ line, lines[k]? = some line →
    ¬ ∃ rest, Line.Closes line rest

theorem gather_take_succ (ho : opener < i) (hl : lines[i]? = some line) :
    gather "" ((lines.take (i + 1)).drop (opener + 1)) =
      gather (gather "" ((lines.take i).drop (opener + 1))) [line] := by
  obtain ⟨hi, -⟩ := List.getElem?_eq_some_iff.mp hl
  have hlength : opener + 1 ≤ (lines.take i).length := by
    rw [List.length_take]
    omega
  rw [List.take_add_one, hl, Option.toList_some, List.drop_append_of_le_length hlength, gather,
    List.foldl_append]
  rfl

theorem OpenSince.content_step {linesLeft : Nat}
    (h : OpenSince keywords lines opener i b) (hl : lines[i]? = some line)
    (hc : ¬ ∃ rest, Line.Closes line rest)
    (hm' : before keywords lines (i + 1) = { before keywords lines i with
      mode := .block { b with content := gather b.content [line], linesLeft } }) :
    OpenSince keywords lines opener (i + 1)
      { b with content := gather b.content [line], linesLeft } where
  lt := Nat.lt_succ_of_lt h.lt
  opens := h.opens
  within := h.within
  frozen := by rw [hm', h.frozen]
  content := by rw [← gather_empty, gather_take_succ h.lt hl, gather_empty, ← h.content]
  unclosed k hk hki other ho := by
    obtain hlt | rfl := Nat.lt_succ_iff_lt_or_eq.mp hki
    · exact h.unclosed k hk hlt other ho
    · obtain rfl := Option.some.inj (hl.symm.trans ho)
      exact hc

theorem openSince_opening {part : Part} {target : String} {linesLeft : Nat}
    (hl : lines[i]? = some line) (hm : (before keywords lines i).mode = .within part)
    (hb : block? line rest = some (target, linesLeft))
    (hm' : before keywords lines (i + 1) =
      (before keywords lines i).openBlock part target linesLeft) :
    OpenSince keywords lines i (i + 1) ⟨target, "", linesLeft, part⟩ where
  lt := Nat.lt_succ_self i
  opens := ⟨line, hl, (block?_eq_some_iff.mp hb).1⟩
  within := hm
  frozen := hm'
  content := by
    rw [List.drop_eq_nil_of_le (List.length_take_le _ _)]
    rfl
  unclosed k hk hki := by omega

theorem exists_openSince (hm : (before keywords lines i).mode = .block b) :
    ∃ opener, OpenSince keywords lines opener i b := by
  induction i generalizing b with
  | zero => cases hm
  | succ i ih =>
    cases hd : lines.drop i with
    | nil =>
      have hf := findIdx?_of_block hm
      rw [drop_succ_of_nil hd] at hf
      cases hf
    | cons line rest =>
      have hl := getElem?_of_drop hd
      have hs := step_spec keywords (before keywords lines i) line rest
      rw [← before_succ hd] at hs
      generalize hm' : before keywords lines (i + 1) = m' at hs hm
      -- Only an opening line and a line of content leave the machine inside a block.
      cases hs with
      | first hi => cases hm
      | closing hi hb => cases hm
      | @content b _ hi hb =>
        cases hm
        obtain ⟨opener, ho⟩ := ih hi
        have hc := not_closes_of_lt hi (Nat.le_refl i) (by omega) hl
        exact ⟨opener, ho.content_step hl hc hm'⟩
      | opening hi hb =>
        cases hm
        exact ⟨i, openSince_opening hl hi hb hm'⟩
      | heading hi hb hk => cases hm
      | item hi hb hk hp hx => cases hm
      | text hi hb hk hx =>
        rw [add_mode, hi] at hm
        cases hm

theorem OpenSince.mode_eq (h : OpenSince keywords lines opener i b) :
    (before keywords lines i).mode = .block b := by
  rw [h.frozen]

theorem OpenSince.read (h : OpenSince keywords lines opener i b) {k : Nat} (hk : k ≤ b.linesLeft) :
    ∃ content, OpenSince keywords lines opener (i + k)
      { b with content, linesLeft := b.linesLeft - k } := by
  induction k with
  | zero => exact ⟨b.content, h⟩
  | succ k ih =>
    obtain ⟨content, hc⟩ := ih (by omega)
    have hm := hc.mode_eq
    obtain ⟨last, -, hlast, -⟩ := exists_closer hm
    obtain ⟨hlt, -⟩ := List.getElem?_eq_some_iff.mp hlast
    have hd := List.drop_eq_getElem_cons (Nat.lt_of_le_of_lt (Nat.le_add_right _ _) hlt)
    have hl := getElem?_of_drop hd
    have hleft : b.linesLeft - k = b.linesLeft - (k + 1) + 1 := by omega
    have hkb : i + k < i + k + (b.linesLeft - k) := by omega
    have hs := step_content keywords hm hleft lines[i + k] (lines.drop (i + k + 1))
    rw [← before_succ hd] at hs
    exact ⟨_, hc.content_step hl (not_closes_of_lt hm (Nat.le_refl _) hkb hl) hs⟩

/-- The block ends at the next line that closes any, and leaves the lines behind its opener. -/
structure Ends (keywords : Option (List String)) (lines : List String) (opener i : Nat)
    (b : Block) : Prop where
  closing : ∃ last rest, lines[i + b.linesLeft]? = some last ∧ Line.Closes last rest ∧
    before keywords lines (i + b.linesLeft + 1) =
      ((before keywords lines opener).note b.target (String.join
        (((lines.take (i + b.linesLeft)).drop (opener + 1)).dropWhile Line.isBlank))).add
          b.interrupted rest
  unclosed : ∀ k, i ≤ k → k < i + b.linesLeft → ∀ line, lines[k]? = some line →
    ¬ ∃ rest, Line.Closes line rest

theorem OpenSince.ends (h : OpenSince keywords lines opener i b) :
    Ends keywords lines opener i b where
  closing := by
    obtain ⟨content, hc⟩ := h.read (Nat.le_refl b.linesLeft)
    obtain ⟨last, rest, hl, hr⟩ := exists_closer h.mode_eq
    obtain ⟨hlt, hlast⟩ := List.getElem?_eq_some_iff.mp hl
    have hd := List.drop_eq_getElem_cons hlt
    rw [hlast] at hd
    have hs := step_closing keywords hc.mode_eq (Nat.sub_self _) hr
      (lines.drop (i + b.linesLeft + 1))
    rw [← before_succ hd, hc.frozen, close_mode hc.within, hc.content] at hs
    exact ⟨last, rest, hl, hr, hs⟩
  unclosed _ hk hkb _ := not_closes_of_lt h.mode_eq hk hkb

/-- What holds in front of each line. -/
structure Consistent (keywords : Option (List String)) (lines : List String) (i : Nat) : Prop where
  opened : Open (before keywords lines i).sections (before keywords lines i).part
  taken : ∀ text,
    ((before keywords lines i).add (before keywords lines i).part text).result.source =
      (before keywords lines i).result.source ++ text
  block : ∀ b, (before keywords lines i).mode = .block b →
    ∃ opener, OpenSince keywords lines opener i b ∧ Ends keywords lines opener i b

theorem consistent_before (keywords : Option (List String)) (lines : List String) (i : Nat) :
    Consistent keywords lines i where
  opened := (valid_before keywords lines i).opened
  taken := source_add (valid_before keywords lines i).opened
  block b hm := by
    obtain ⟨opener, ho⟩ := exists_openSince hm
    exact ⟨opener, ho, ho.ends⟩

theorem result_before (text : String) (keywords : Option (List String)) :
    (before keywords (Text.lines text) (Text.lines text).length).result = ofText text keywords := by
  have hr := run_before keywords (Text.lines text) (Text.lines text).length
  rw [List.drop_length, run] at hr
  rw [ofText, hr]

/-- The machine is consistent in front of every line, and outside of blocks behind the last one. -/
theorem consistent_throughout (text : String) (keywords : Option (List String)) :
    let lines := Text.lines text
    (∀ i, Consistent keywords lines i) ∧
      (∀ b, (before keywords lines lines.length).mode ≠ .block b) ∧
      ofText text keywords = (before keywords lines lines.length).result := by
  intro lines
  refine ⟨consistent_before keywords lines, ?_, (result_before text keywords).symm⟩
  intro b hm
  have hf := findIdx?_of_block hm
  rw [List.drop_length] at hf
  cases hf

theorem consistent_throughout_note :
    let lines := Text.lines
      "Adds.\nArgs:\n  x: one\n@compatibility(np)\n\nSame.\n@end_compatibility more\n"
    (before none lines 6).mode = .block ⟨"np", "Same.\n", 0, .item⟩ ∧
      ∃ opener, OpenSince none lines opener 6 ⟨"np", "Same.\n", 0, .item⟩ ∧
        Ends none lines opener 6 ⟨"np", "Same.\n", 0, .item⟩ := by
  intro lines
  have hm : (before none lines 6).mode = .block ⟨"np", "Same.\n", 0, .item⟩ := by decide +kernel
  exact ⟨hm, ((consistent_throughout _ none).1 6).block _ hm⟩

end RefDoc.Docstring.Machine
