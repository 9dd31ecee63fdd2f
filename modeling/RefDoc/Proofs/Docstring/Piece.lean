import RefDoc.Proofs.Docstring.Invariant

namespace RefDoc.Docstring

structure ClosedBlock where
  opener : String
  target : String
  content : List String
  closer : String
  deriving DecidableEq

inductive Piece
  | line (text : String)
  | block (b : ClosedBlock)
  deriving DecidableEq

namespace Piece

def lines : Piece → List String
  | line text => [text]
  | block b => b.opener :: (b.content ++ [b.closer])

def ofLines : List String → List Piece
  | [] => []
  | text :: rest =>
    match Line.blockTarget? text, _h : rest.dropWhile (! Line.closesBlock ·) with
    | some target, closer :: after =>
      block ⟨text, target, rest.takeWhile (! Line.closesBlock ·), closer⟩ :: ofLines after
    | _, _ => line text :: ofLines rest
termination_by ls => ls.length
decreasing_by
  · have hl := (List.dropWhile_sublist (! Line.closesBlock ·) (l := rest)).length_le
    rw [_h, List.length_cons] at hl
    simp only [List.length_cons]
    omega
  · simp

end Piece

/-- Lines and their pieces: a block goes from a line that starts one to the first that ends one. -/
inductive Splits : List String → List Piece → Prop
  | nil : Splits [] []
  | line {text : String} {rest : List String} {pieces : List Piece}
    (hn : (∃ target, Line.Opens text target) → ∀ last ∈ rest, ¬ ∃ ending, Line.Closes last ending)
    (hr : Splits rest pieces) : Splits (text :: rest) (.line text :: pieces)
  | block {b : ClosedBlock} {ending : String} {after : List String} {pieces : List Piece}
    (ho : Line.Opens b.opener b.target)
    (hn : ∀ line ∈ b.content, ¬ ∃ ending, Line.Closes line ending)
    (hc : Line.Closes b.closer ending) (hr : Splits after pieces) :
    Splits (b.opener :: (b.content ++ b.closer :: after)) (.block b :: pieces)

theorem splits_ofLines (lines : List String) : Splits lines (Piece.ofLines lines) := by
  fun_induction Piece.ofLines lines with
  | case1 => exact .nil
  | case2 text rest target closer after h ht ih =>
    have hrest : rest = rest.takeWhile (! Line.closesBlock ·) ++ closer :: after := by
      rw [← h, List.takeWhile_append_dropWhile]
    have hcloser : Line.closesBlock closer = true := by
      have hhead := List.head_dropWhile_not (! Line.closesBlock ·) (l := rest) (by simp [h])
      simpa [h] using hhead
    obtain ⟨ending, hc⟩ := Line.closesBlock_iff.mp hcloser
    have hb := Splits.block (b := ⟨text, target, rest.takeWhile (! Line.closesBlock ·), closer⟩)
      (Line.blockTarget?_eq_some_iff.mp ht) ?_ hc ih
    · dsimp only at hb
      rwa [← hrest] at hb
    · intro line hl
      rw [← Line.closesBlock_iff]
      simpa using List.mem_takeWhile_imp hl
  | case3 text rest h ih =>
    refine .line ?_ ih
    intro hopens last hl
    obtain ⟨target, ht⟩ := Option.isSome_iff_exists.mp (Line.opensBlock_iff.mpr hopens)
    rw [← Line.closesBlock_iff]
    cases hd : rest.dropWhile (! Line.closesBlock ·) with
    | nil => simpa using List.dropWhile_eq_nil_iff.mp hd last hl
    | cons closer after => exact (h target closer after ht hd).elim

variable {lines : List String} {pieces : List Piece}

theorem Splits.flatMap_lines (h : Splits lines pieces) : pieces.flatMap Piece.lines = lines := by
  induction h with
  | nil => rfl
  | line hn hr ih => rw [List.flatMap_cons, ih, Piece.lines, List.singleton_append]
  | block ho hn hc hr ih => simp [ih, Piece.lines]

def gather (content : String) (lines : List String) : String :=
  lines.foldl (fun content line =>
    if content = "" ∧ Line.isBlank line then "" else content ++ line) content

theorem gather_of_ne {content : String} (h : content ≠ "") (lines : List String) :
    gather content lines = content ++ String.join lines := by
  induction lines generalizing content with
  | nil => simp [gather]
  | cons line rest ih =>
    have hne : content ++ line ≠ "" := by simp [h]
    have hg : gather content (line :: rest) = gather (content ++ line) rest := by
      rw [gather, List.foldl_cons, if_neg (by simp [h]), gather]
    rw [hg, ih hne, String.join_cons, String.append_assoc]

theorem gather_empty (lines : List String) :
    gather "" lines = String.join (lines.dropWhile Line.isBlank) := by
  induction lines with
  | nil => rfl
  | cons line rest ih =>
    rw [List.dropWhile_cons]
    split
    · next hb => rw [← ih, gather, List.foldl_cons, if_pos ⟨rfl, hb⟩, gather]
    · next hb =>
      have hne : line ≠ "" := by
        rintro rfl
        exact hb rfl
      rw [gather, List.foldl_cons, if_neg (by simp [hb]), String.empty_append, String.join_cons]
      exact gather_of_ne hne rest

namespace Machine

variable {keywords : Option (List String)} {m : Machine} {part : Part} {line : String}
  {rest : List String}

@[simp] theorem note_mode (m : Machine) (target content : String) :
    (m.note target content).mode = m.mode := by
  rw [note]
  split <;> rfl

@[simp] theorem add_notes (m : Machine) (part : Part) (text : String) :
    (m.add part text).notes = m.notes := by
  cases part <;> rfl

theorem mode_note_add (hm : m.mode = .within part) (target content ending : String) :
    ((m.note target content).add part ending).mode = .within part := by
  rw [add_mode, note_mode, hm]

theorem exists_mode_inPart (hm : m.mode = .within part) :
    ∃ part', (m.inPart keywords part line rest).mode = .within part' := by
  unfold inPart
  split
  · exact ⟨.header, rfl⟩
  · cases part with
    | body => exact ⟨.body, hm⟩
    | header | item =>
      cases m.item? line with
      | none => exact ⟨_, (add_mode m _ line).trans hm⟩
      | some entry => exact ⟨.item, rfl⟩

theorem inPart_notes (keywords : Option (List String)) (m : Machine) (part : Part) (line : String)
    (rest : List String) : (m.inPart keywords part line rest).notes = m.notes := by
  unfold inPart
  split
  · rfl
  · cases part with
    | body => rfl
    | header | item =>
      cases m.item? line with
      | none => exact add_notes m _ line
      | some entry => rfl

theorem run_content {target : String} (content : String) (between : List String)
    (hm : m.mode = .block ⟨target, content, between.length, part⟩) (rest : List String) :
    m.run keywords (between ++ rest) =
      { m with mode := .block ⟨target, gather content between, 0, part⟩ }.run keywords rest := by
  induction between generalizing m content with
  | nil =>
    rw [List.nil_append, gather, List.foldl_nil]
    rw [List.length_nil] at hm
    rw [← hm]
  | cons line between ih =>
    rw [List.cons_append, run, step, hm]
    exact ih _ rfl

theorem close_mode (hm : m.mode = .within part) (mode : Mode) (target content ending : String) :
    { ({ m with mode }.note target content).add part ending with mode := .within part } =
      (m.note target content).add part ending := by
  rw [note, note]
  cases part <;> split <;> simp [add, hm]

/-- A complete block leaves its note, and the part goes on behind the closing mark. -/
theorem run_block {b : ClosedBlock} {ending : String} (ho : Line.Opens b.opener b.target)
    (hn : ∀ line ∈ b.content, ¬ ∃ ending, Line.Closes line ending)
    (hc : Line.Closes b.closer ending) (hm : m.mode = .within part) (after : List String) :
    m.run keywords (b.opener :: (b.content ++ b.closer :: after)) =
      ((m.note b.target (String.join (b.content.dropWhile Line.isBlank))).add part ending).run
        keywords after := by
  have hb : block? b.opener (b.content ++ b.closer :: after) =
      some (b.target, b.content.length) := by
    refine block?_eq_some_iff.mpr ⟨ho, ?_⟩
    rw [List.findIdx?_append, List.findIdx?_eq_none_iff.mpr, List.findIdx?_cons,
      if_pos (Line.closesBlock_iff.mpr ⟨ending, hc⟩)]
    · simp
    · intro line hl
      simpa [← Line.closesBlock_iff] using hn line hl
  have hopen : m.step keywords b.opener (b.content ++ b.closer :: after) =
      m.openBlock part b.target b.content.length := by
    simp only [step, hm, hb]
  rw [run, hopen, run_content "" b.content rfl, gather_empty, run]
  congr 1
  simp only [step, inBlock, Line.afterBlock?_eq_some_iff.mpr hc, Option.getD_some, openBlock]
  exact close_mode hm _ _ _ _

end Machine

end RefDoc.Docstring
