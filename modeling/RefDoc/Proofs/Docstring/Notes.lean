import RefDoc.Proofs.Docstring.Piece
import RefDoc.Proofs.Table

namespace RefDoc.Docstring

/-- The target of a block and the lines between its marks, without blank lines in front. -/
def Piece.note? : Piece → Option (String × String)
  | .line _ => none
  | .block b =>
    if b.target = "__proto__" then none
    else some (b.target, String.join (b.content.dropWhile Line.isBlank))

theorem Piece.note?_eq_some_iff {piece : Piece} {target content : String} :
    piece.note? = some (target, content) ↔ target ≠ "__proto__" ∧ ∃ b, piece = .block b ∧
      b.target = target ∧ content = String.join (b.content.dropWhile Line.isBlank) := by
  cases piece with
  | line text => simp [note?]
  | block b =>
    rw [note?]
    split
    · next hb =>
      refine iff_of_false nofun fun h => ?_
      obtain ⟨ht, _, ⟨⟩, rfl, -⟩ := h
      exact ht hb
    · next hb =>
      constructor
      · intro h
        cases h
        exact ⟨hb, b, rfl, rfl, rfl⟩
      · intro h
        obtain ⟨-, _, ⟨⟩, rfl, rfl⟩ := h
        rfl

variable {keywords : Option (List String)} {lines : List String} {pieces : List Piece}

theorem Machine.notes_run (h : Splits lines pieces) {m : Machine} {part : Part}
    (hm : m.mode = .within part) :
    (m.run keywords lines).notes =
      (pieces.filterMap Piece.note?).foldl (fun t (key, value) => t.insert key value) m.notes := by
  induction h generalizing m part with
  | nil => rfl
  | @line text rest pieces hn hr ih =>
    obtain ⟨part', hm'⟩ : ∃ part', (m.inPart keywords part text rest).mode = .within part' :=
      exists_mode_inPart hm
    rw [run, step_eq_inPart hm (block?_eq_none_iff.mpr hn), ih hm', inPart_notes]
    rfl
  | @block b ending after pieces ho hn hc hr ih =>
    rw [run_block ho hn hc hm, ih (mode_note_add hm _ _ _), add_notes, note, reservedTarget,
      List.filterMap_cons]
    by_cases ht : b.target = "__proto__"
    · rw [if_pos ht, Piece.note?, if_pos ht]
    · rw [if_neg ht, Piece.note?, if_neg ht]
      rfl

theorem notes_eq_ofList (text : String) (keywords : Option (List String)) :
    (ofText text keywords).notes =
      Table.ofList ((Piece.ofLines ((Text.lines text).drop 1)).filterMap Piece.note?) := by
  rw [ofText]
  cases Text.lines text with
  | nil => simp [Machine.run, Machine.result, Machine.start, Piece.ofLines, Table.ofList]
  | cons first rest =>
    have hm : (Machine.start.step keywords first rest).mode = .within .body := rfl
    rw [Machine.run, Machine.result, List.drop_one, List.tail_cons,
      Machine.notes_run (splits_ofLines rest) hm]
    rfl

theorem notes_of_blockless {text : String} (keywords : Option (List String))
    (h : Blockless ((Text.lines text).drop 1)) : (ofText text keywords).notes = .empty := by
  have hnone {lines : List String} {pieces : List Piece} (hs : Splits lines pieces)
      (h : Blockless lines) : pieces.filterMap Piece.note? = [] := by
    induction hs with
    | nil => rfl
    | line hn hr ih => exact ih (List.Pairwise.of_cons h)
    | block ho hn hc hr ih =>
      exact absurd ⟨_, hc⟩ ((List.pairwise_cons.mp h).1 _ (by simp) ⟨_, ho⟩)
  rw [notes_eq_ofList, hnone (splits_ofLines _) h]
  rfl

theorem lastNote_iff {target content : String} :
    (∃ earlier later, pieces.filterMap Piece.note? = earlier ++ (target, content) :: later ∧
        ∀ entry ∈ later, entry.1 ≠ target) ↔
      target ≠ "__proto__" ∧ ∃ earlier b later, pieces = earlier ++ .block b :: later ∧
        b.target = target ∧ content = String.join (b.content.dropWhile Line.isBlank) ∧
        ∀ b', .block b' ∈ later → b'.target ≠ target := by
  constructor
  · intro h
    obtain ⟨earlier, later, he, hl⟩ := h
    obtain ⟨front, back, rfl, -, hback⟩ := List.filterMap_eq_append_iff.mp he
    obtain ⟨plain, piece, rest, rfl, -, hpiece, hrest⟩ := List.filterMap_eq_cons_iff.mp hback
    obtain ⟨ht, b, rfl, hb, hc⟩ := Piece.note?_eq_some_iff.mp hpiece
    refine ⟨ht, front ++ plain, b, rest, by rw [List.append_assoc], hb, hc, ?_⟩
    intro b' hb' htarget
    -- A later block of the same target would have left a later note.
    have hnote := Piece.note?_eq_some_iff.mpr ⟨ht, b', rfl, htarget, rfl⟩
    exact hl _ (hrest ▸ List.mem_filterMap.mpr ⟨_, hb', hnote⟩) rfl
  · intro h
    obtain ⟨ht, earlier, b, later, rfl, hb, hc, hl⟩ := h
    have hnote := Piece.note?_eq_some_iff.mpr ⟨ht, b, rfl, hb, hc⟩
    refine ⟨earlier.filterMap Piece.note?, later.filterMap Piece.note?, ?_, ?_⟩
    · rw [List.filterMap_append, List.filterMap_cons, hnote]
    · intro entry hentry
      obtain ⟨piece, hpiece, hnote'⟩ := List.mem_filterMap.mp hentry
      obtain ⟨-, b', rfl, hb', -⟩ := Piece.note?_eq_some_iff.mp hnote'
      exact hb' ▸ hl b' hpiece

/-- A target has the note of the last complete block that names it, for all keywords alike. -/
theorem notes_ofText (text : String) :
    let pieces := Piece.ofLines ((Text.lines text).drop 1)
    Splits ((Text.lines text).drop 1) pieces ∧ ∀ keywords,
      (ofText text keywords).notes = Table.ofList (pieces.filterMap Piece.note?) ∧
        ∀ target content, (ofText text keywords).notes.find? target = some content ↔
          target ≠ "__proto__" ∧ ∃ earlier b later, pieces = earlier ++ .block b :: later ∧
            b.target = target ∧ content = String.join (b.content.dropWhile Line.isBlank) ∧
            ∀ b', .block b' ∈ later → b'.target ≠ target := by
  intro pieces
  refine ⟨splits_ofLines _, fun keywords => ⟨notes_eq_ofList text keywords, ?_⟩⟩
  intro target content
  rw [notes_eq_ofList, Table.find?_ofList_eq_some_iff, lastNote_iff]

example :
    (ofText ("A.\n@compatibility(np)\n\nArgs:\n@compatibility(tf)\n@end_compatibility\n" ++
        "@end_compatibility\n@compatibility(tf)\n") none).notes.entries =
      [("np", "Args:\n@compatibility(tf)\n")] := by
  decide +kernel

end RefDoc.Docstring
