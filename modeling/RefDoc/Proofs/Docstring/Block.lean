import RefDoc.Docstring.Machine
import RefDoc.Proofs.Docstring.Line

namespace RefDoc.Docstring

namespace Line

def remains (line : String) : String :=
  String.ofList ((line.toList.dropWhile Text.isBlank).drop "@end_compatibility".length)

theorem Closes.remains_eq {line rest : String} (h : Closes line rest) : remains line = rest := by
  obtain ⟨cs, hc, rfl⟩ := Option.map_eq_some_iff.mp (afterBlock?_eq_some_iff.mpr h)
  rw [remains, behind?_eq_some_iff.mp hc]
  exact congrArg String.ofList List.drop_left

theorem opensBlock_iff {line : String} :
    (blockTarget? line).isSome = true ↔ ∃ target, Opens line target := by
  simp only [Option.isSome_iff_exists, blockTarget?_eq_some_iff]

theorem closesBlock_iff {line : String} : closesBlock line = true ↔ ∃ rest, Closes line rest := by
  simp only [closesBlock, Option.isSome_iff_exists, afterBlock?_eq_some_iff]

instance (line : String) : Decidable (∃ target, Opens line target) :=
  decidable_of_iff _ opensBlock_iff

instance (line : String) : Decidable (∃ rest, Closes line rest) :=
  decidable_of_iff _ closesBlock_iff

end Line

/-- The lines without their complete blocks, which leave what stands behind the closing marks. -/
def excise : List String → List String
  | [] => []
  | line :: rest =>
    match _h : rest.dropWhile fun l => ¬ ∃ text, Line.Closes l text with
    | [] => line :: excise rest
    | last :: after =>
      if ∃ target, Line.Opens line target then Line.remains last :: excise after
      else line :: excise rest
termination_by lines => lines.length
decreasing_by
  · simp
  · have hl := List.length_dropWhile_le (fun l => decide ¬ ∃ text, Line.Closes l text) rest
    rw [_h] at hl
    simp only [List.length_cons] at hl ⊢
    omega
  · simp

/-- A text without its complete blocks; the first line never starts one. -/
def excised (text : String) : String :=
  String.join ((Text.lines text).take 1 ++ excise ((Text.lines text).drop 1))

/-- No line that starts a block has a line behind it that ends one. -/
def Blockless (lines : List String) : Prop :=
  lines.Pairwise fun line later =>
    (∃ target, Line.Opens line target) → ¬ ∃ rest, Line.Closes later rest

instance (lines : List String) : Decidable (Blockless lines) :=
  inferInstanceAs (Decidable (List.Pairwise _ lines))

variable {line target : String} {rest : List String}

theorem block?_eq_some_iff {linesLeft : Nat} : block? line rest = some (target, linesLeft) ↔
    Line.Opens line target ∧ rest.findIdx? Line.closesBlock = some linesLeft := by
  rw [block?, ← Line.blockTarget?_eq_some_iff]
  split
  · next ht => simp [ht]
  · next target' ht =>
    rw [ht, Option.some.injEq, Option.map_eq_some_iff]
    constructor
    · intro hx
      obtain ⟨n, hn, he⟩ := hx
      cases he
      exact ⟨rfl, hn⟩
    · intro hx
      obtain ⟨rfl, hn⟩ := hx
      exact ⟨linesLeft, hn, rfl⟩

theorem block?_eq_none_iff : block? line rest = none ↔
    ((∃ target, Line.Opens line target) → ∀ last ∈ rest, ¬ ∃ text, Line.Closes last text) := by
  rw [block?, ← Line.opensBlock_iff]
  split
  · next ht => simp [ht]
  · next target ht =>
    simp only [ht, Option.isSome_some, true_imp_iff, Option.map_eq_none_iff,
      List.findIdx?_eq_none_iff, ← Line.closesBlock_iff, Bool.not_eq_true]

theorem dropWhile_of_findIdx? {p : String → Bool} {lines : List String} {n : Nat}
    (h : lines.findIdx? p = some n) :
    ∃ last after, lines.dropWhile (! p ·) = last :: after ∧ lines.drop n = last :: after := by
  induction lines generalizing n with
  | nil => cases h
  | cons line rest ih =>
    rw [List.findIdx?_cons] at h
    split at h
    · next hp =>
      cases h
      exact ⟨line, rest, by simp [hp], rfl⟩
    · next hp =>
      obtain ⟨k, hk, rfl⟩ := Option.map_eq_some_iff.mp h
      obtain ⟨last, after, hw, hd⟩ := ih hk
      exact ⟨last, after, by simp [hp, hw], by simpa using hd⟩

theorem dropWhile_closes (lines : List String) :
    (lines.dropWhile fun l => decide ¬ ∃ text, Line.Closes l text) =
      lines.dropWhile (! Line.closesBlock ·) := by
  congr 1
  funext line
  rw [Bool.eq_iff_iff, decide_eq_true_iff, Bool.not_eq_true', ← Bool.not_eq_true,
    Line.closesBlock_iff]

theorem excise_of_block? {linesLeft : Nat} (h : block? line rest = some (target, linesLeft)) :
    ∃ last after, rest.drop linesLeft = last :: after ∧
      excise (line :: rest) = Line.remains last :: excise after := by
  obtain ⟨ho, hf⟩ := block?_eq_some_iff.mp h
  obtain ⟨last, after, hw, hd⟩ := dropWhile_of_findIdx? hf
  refine ⟨last, after, hd, ?_⟩
  rw [← dropWhile_closes] at hw
  rw [excise]
  split
  · next h' => cases hw.symm.trans h'
  · next h' =>
    cases hw.symm.trans h'
    exact if_pos ⟨target, ho⟩

example :
    excised "Adds.\n@compatibility(np)\nArgs:\n @end_compatibility more" = "Adds.\n more" := by
  decide +kernel

theorem excise_of_not_block? (h : block? line rest = none) :
    excise (line :: rest) = line :: excise rest := by
  rw [excise]
  split
  · rfl
  · next last after h' =>
    rw [if_neg]
    intro ho
    have hm : last ∈ rest := (List.dropWhile_suffix _).mem (h' ▸ List.mem_cons_self)
    have hc := List.head_dropWhile_not (fun l => decide ¬ ∃ text, Line.Closes l text) (l := rest)
      (by rw [h']; exact List.cons_ne_nil _ _)
    simp only [h', List.head_cons, decide_eq_false_iff_not, not_not] at hc
    exact block?_eq_none_iff.mp h ho last hm hc

theorem Blockless.block?_eq_none (h : Blockless (line :: rest)) : block? line rest = none :=
  block?_eq_none_iff.mpr fun ho last hm => (List.pairwise_cons.mp h).1 last hm ho

theorem excise_of_blockless {lines : List String} (h : Blockless lines) : excise lines = lines := by
  induction lines with
  | nil => rw [excise]
  | cons line rest ih =>
    rw [excise_of_not_block? h.block?_eq_none, ih (List.Pairwise.of_cons h)]

end RefDoc.Docstring
