import Mathlib.Data.List.TakeWhile
import RefDoc.Text.Lines

namespace RefDoc.Text

theorem splitLines_append_newline {cs : List Char} (h : '\n' ∉ cs) (rest : List Char) :
    splitLines (cs ++ '\n' :: rest) = (cs ++ ['\n']) :: splitLines rest := by
  induction cs with
  | nil => simp [splitLines]
  | cons c cs ih =>
    obtain ⟨hc, hcs⟩ := List.ne_and_not_mem_of_not_mem_cons h
    rw [List.cons_append, splitLines, if_neg (Ne.symm hc), ih hcs]
    rfl

theorem splitLines_of_not_mem {cs : List Char} (hne : cs ≠ []) (h : '\n' ∉ cs) :
    splitLines cs = [cs] := by
  induction cs with
  | nil => cases hne rfl
  | cons c cs ih =>
    obtain ⟨hc, hcs⟩ := List.ne_and_not_mem_of_not_mem_cons h
    rw [splitLines, if_neg (Ne.symm hc)]
    cases cs with
    | nil => rfl
    | cons d ds => rw [ih (List.cons_ne_nil _ _) hcs]

theorem splitLines_cases (cs : List Char) :
    cs = [] ∨ (cs ≠ [] ∧ '\n' ∉ cs ∧ splitLines cs = [cs]) ∨
      ∃ line rest, '\n' ∉ line ∧ cs = line ++ '\n' :: rest ∧
        splitLines cs = (line ++ ['\n']) :: splitLines rest := by
  by_cases hm : '\n' ∈ cs
  · obtain ⟨line, rest, rfl, hl⟩ := List.eq_append_cons_of_mem hm
    exact .inr (.inr ⟨line, rest, hl, rfl, splitLines_append_newline hl rest⟩)
  · cases cs with
    | nil => exact .inl rfl
    | cons c cs =>
      have hne : c :: cs ≠ [] := List.cons_ne_nil _ _
      exact .inr (.inl ⟨hne, hm, splitLines_of_not_mem hne hm⟩)

theorem takeWhile_of_not_mem {cs : List Char} (h : '\n' ∉ cs) : cs.takeWhile (· != '\n') = cs :=
  List.takeWhile_eq_self_iff.mpr fun _ hc => bne_iff_ne.mpr (ne_of_mem_of_not_mem hc h)

theorem takeWhile_append_newline {cs : List Char} (h : '\n' ∉ cs) (rest : List Char) :
    (cs ++ '\n' :: rest).takeWhile (· != '\n') = cs := by
  rw [List.takeWhile_append_of_pos fun _ hc => bne_iff_ne.mpr (ne_of_mem_of_not_mem hc h)]
  simp

def Ended (line : String) : Prop := ∃ cs, '\n' ∉ cs ∧ line.toList = cs ++ ['\n']

/-- Lines as a text has them: none is empty, and each that another one follows ends. -/
def Whole (ls : List String) : Prop :=
  (ls.Pairwise fun line _ => Ended line) ∧
    ∀ line ∈ ls, line ≠ "" ∧ (Ended line ∨ '\n' ∉ line.toList)

theorem whole_lines (s : String) : Whole (lines s) := by
  have h (cs : List Char) : Whole ((splitLines cs).map String.ofList) := by
    induction hn : cs.length using Nat.strong_induction_on generalizing cs with
    | _ n ih =>
      obtain rfl | ⟨hne, hm, hs⟩ | ⟨line, rest, hl, rfl, hs⟩ := splitLines_cases cs
      · exact ⟨.nil, nofun⟩
      · rw [hs]
        exact ⟨List.pairwise_singleton _ _, by simpa using ⟨hne, .inr hm⟩⟩
      · have he : Ended (String.ofList (line ++ ['\n'])) := ⟨line, hl, String.toList_ofList⟩
        obtain ⟨hp, hall⟩ := ih rest.length (by simp [← hn]; omega) rest rfl
        rw [hs, List.map_cons]
        exact ⟨List.pairwise_cons.mpr ⟨fun _ _ => he, hp⟩,
          List.forall_mem_cons.mpr ⟨⟨by simp, .inl he⟩, hall⟩⟩
  exact h s.toList

/-- Whole lines are the lines of the text they make up. -/
theorem lines_join {ls : List String} (h : Whole ls) : lines (String.join ls) = ls := by
  induction ls with
  | nil => rfl
  | cons line rest ih =>
    obtain ⟨hp, hall⟩ := h
    obtain ⟨hended, hp⟩ := List.pairwise_cons.mp hp
    obtain ⟨⟨hne, hline⟩, hall⟩ := List.forall_mem_cons.mp hall
    have hrest := ih ⟨hp, hall⟩
    rw [lines] at hrest ⊢
    rw [String.join_cons, String.toList_append]
    rcases hline with ⟨cs, hcs, hl⟩ | hm
    · rw [hl, List.append_assoc, List.singleton_append, splitLines_append_newline hcs,
        List.map_cons, hrest, ← hl, String.ofList_toList]
    · have hnil : rest = [] := by
        cases rest with
        | nil => rfl
        | cons next rest =>
          obtain ⟨cs, -, hl⟩ := hended next List.mem_cons_self
          exact absurd (by simp [hl]) hm
      subst hnil
      rw [String.join_nil, String.toList_empty, List.append_nil,
        splitLines_of_not_mem (by simpa using hne) hm, List.map_singleton, String.ofList_toList]

end RefDoc.Text
