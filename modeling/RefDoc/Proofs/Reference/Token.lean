import RefDoc.Proofs.Text.Split
import RefDoc.Reference.Token

namespace RefDoc.Reference

variable {cs body rest tail : List Char} {c : Char}

theorem token?_eq_some_iff : token? cs = some (body, rest) ↔
    cs = '@' :: '{' :: (body ++ '}' :: rest) ∧ body ≠ [] ∧ '}' ∉ body := by
  constructor
  · intro h
    obtain ⟨hs, hn⟩ := eq_of_token? h
    exact ⟨by simpa [Fragment.source] using hs, hn⟩
  · intro hx
    obtain ⟨rfl, hne, hb⟩ := hx
    simp [token?, Text.cutFirst?_append hb, hne]

theorem fragments_of_token? (h : token? cs = some (body, rest)) :
    fragments cs = .token body :: fragments rest := by
  cases cs with
  | nil => cases h
  | cons c tail =>
    rw [fragments]
    split
    · next h' =>
      cases h.symm.trans h'
      rfl
    · next h' => cases h.symm.trans h'

theorem fragments_of_not_token? (h : token? (c :: tail) = none) :
    fragments (c :: tail) = .plain c :: fragments tail := by
  rw [fragments]
  split
  · next h' => cases h.symm.trans h'
  · rfl

@[simp] theorem fragments_nil : fragments [] = [] := by rw [fragments]

theorem token?_append (h : token? cs = some (body, rest)) (more : List Char) :
    token? (cs ++ more) = some (body, rest ++ more) := by
  obtain ⟨rfl, hn⟩ := token?_eq_some_iff.mp h
  exact token?_eq_some_iff.mpr ⟨by simp, hn⟩

theorem token?_eq_none_of_not_mem (h : '}' ∉ tail) : token? (c :: tail) = none := by
  rw [Option.eq_none_iff_forall_ne_some]
  rintro ⟨body, rest⟩ ht
  obtain ⟨he, -⟩ := token?_eq_some_iff.mp ht
  obtain ⟨rfl, rfl⟩ := List.cons.inj he
  simp at h

theorem token?_append_eq_none (h : token? (c :: tail) = none) (more : List Char) :
    token? (c :: tail ++ more) = none ∨
      (c = '@' ∧ '}' ∉ tail ∧ (tail = [] ∨ ∃ inner, tail = '{' :: inner)) := by
  cases hm : token? (c :: tail ++ more) with
  | none => exact .inl rfl
  | some found =>
    obtain ⟨body, rest⟩ := found
    obtain ⟨he, hne, hb⟩ := token?_eq_some_iff.mp hm
    rw [List.cons_append, List.cons.injEq] at he
    obtain ⟨rfl, he⟩ := he
    cases tail with
    | nil => exact .inr ⟨rfl, List.not_mem_nil, .inl rfl⟩
    | cons d inner =>
      rw [List.cons_append, List.cons.injEq] at he
      obtain ⟨rfl, he⟩ := he
      refine .inr ⟨rfl, fun hm => ?_, .inr ⟨inner, rfl⟩⟩
      have hi : '}' ∈ inner := by simpa using hm
      obtain ⟨before, after, rfl, hbe⟩ := List.eq_append_cons_of_mem hi
      rw [List.append_assoc, List.cons_append] at he
      have hc := Text.cutFirst?_append hbe (after ++ more)
      rw [he, Text.cutFirst?_append hb] at hc
      cases hc
      cases h.symm.trans (token?_eq_some_iff.mpr ⟨rfl, hne, hb⟩)

/-- Scanning goes on behind a text without tokens that cannot run into one. -/
theorem fragments_plain_append (hb : '{' ∉ cs) (hl : cs.getLast? ≠ some '@') (rest : List Char) :
    fragments (cs ++ rest) = cs.map .plain ++ fragments rest := by
  induction cs with
  | nil => rfl
  | cons c cs ih =>
    obtain ⟨-, hcs⟩ := List.ne_and_not_mem_of_not_mem_cons hb
    have hn : token? (c :: (cs ++ rest)) = none := by
      rw [Option.eq_none_iff_forall_ne_some]
      rintro ⟨body, more⟩ ht
      obtain ⟨he, -⟩ := token?_eq_some_iff.mp ht
      obtain ⟨rfl, htail⟩ := List.cons.inj he
      cases cs with
      | nil => exact hl rfl
      | cons d cs =>
        rw [List.cons_append, List.cons.injEq] at htail
        exact hcs (htail.1 ▸ List.mem_cons_self)
    rw [List.cons_append, fragments_of_not_token? hn, ih hcs]
    · rfl
    · cases cs with
      | nil => simp
      | cons d cs => rwa [List.getLast?_cons_cons] at hl

theorem fragments_append_of_not_mem (h : '}' ∉ rest) (cs : List Char) :
    fragments (cs ++ rest) = fragments cs ++ fragments rest := by
  fun_induction fragments cs with
  | case1 => rfl
  | case2 c tail body after ht ih =>
    rw [fragments_of_token? (token?_append ht rest), ih, List.cons_append]
  | case3 c tail ht ih =>
    have hn : token? (c :: tail ++ rest) = none := by
      obtain hn | ⟨-, hm, -⟩ := token?_append_eq_none ht rest
      · exact hn
      · exact token?_eq_none_of_not_mem (by simp [hm, h])
    rw [List.cons_append] at hn ⊢
    rw [fragments_of_not_token? hn, ih, List.cons_append]

/-- No token that a text leaves open is closed by what follows. -/
def Closed (cs : List Char) : Prop :=
  ∀ rest, fragments (cs ++ rest) = fragments cs ++ fragments rest

theorem fragments_append {cs ds : List Char} (h : Closed cs ∨ '}' ∉ ds) :
    fragments (cs ++ ds) = fragments cs ++ fragments ds := by
  obtain hc | hd := h
  · exact hc ds
  · exact fragments_append_of_not_mem hd cs

theorem closed_nil : Closed [] := by
  intro rest
  rw [fragments_nil, List.nil_append, List.nil_append]

theorem Closed.append {cs ds : List Char} (hc : Closed cs) (hd : Closed ds) :
    Closed (cs ++ ds) := by
  intro rest
  rw [List.append_assoc, hc, hd, hc, List.append_assoc]

theorem Closed.of_plain_append {cs ds : List Char} (hb : '{' ∉ cs) (hl : cs.getLast? ≠ some '@')
    (h : Closed (cs ++ ds)) : Closed ds := by
  intro rest
  have hr := h rest
  rw [List.append_assoc, fragments_plain_append hb hl, fragments_plain_append hb hl,
    List.append_assoc] at hr
  exact List.append_cancel_left hr

theorem Closed.of_token? (h : token? cs = some (body, rest)) (hr : Closed rest) : Closed cs := by
  intro more
  rw [fragments_of_token? h, fragments_of_token? (token?_append h more), hr, List.cons_append]

theorem Closed.of_not_token? (h : ∀ more, token? (c :: tail ++ more) = none) (ht : Closed tail) :
    Closed (c :: tail) := by
  intro more
  have hn := h []
  have hm := h more
  rw [List.append_nil] at hn
  rw [List.cons_append] at hm ⊢
  rw [fragments_of_not_token? hm, fragments_of_not_token? hn, ht, List.cons_append]

/-- Whether every token of a text stands on one line. -/
def OneLine (cs : List Char) : Prop := ∀ body, .token body ∈ fragments cs → '\n' ∉ body

theorem OneLine.of_token? (h : token? cs = some (body, rest)) (ho : OneLine cs) : OneLine rest := by
  intro inner hm
  exact ho inner (fragments_of_token? h ▸ List.mem_cons_of_mem _ hm)

theorem OneLine.of_not_token? (h : token? (c :: tail) = none) (ho : OneLine (c :: tail)) :
    OneLine tail := by
  intro inner hm
  exact ho inner (fragments_of_not_token? h ▸ List.mem_cons_of_mem _ hm)

theorem getLast?_of_append (xs : List Char) {ys : List Char} (h : (xs ++ ys).getLast? = some c) :
    ys = [] ∨ ys.getLast? = some c := by
  cases ys with
  | nil => exact .inl rfl
  | cons y ys => exact .inr (by simpa using h)

theorem closed_or_not_mem (hl : cs = [] ∨ cs.getLast? = some '\n') (ho : OneLine (cs ++ rest)) :
    Closed cs ∨ '}' ∉ rest := by
  fun_induction fragments cs with
  | case1 => exact .inl closed_nil
  | case2 c tail body after ht ih =>
    have hl' : after = [] ∨ after.getLast? = some '\n' := by
      obtain ⟨he, -⟩ := eq_of_token? ht
      rw [he] at hl
      obtain hl | hl := hl
      · exact .inl (List.append_eq_nil_iff.mp hl).2
      · exact getLast?_of_append _ hl
    exact (ih hl' (ho.of_token? (token?_append ht rest))).imp_left (.of_token? ht)
  | case3 c tail ht ih =>
    have hl' : tail = [] ∨ tail.getLast? = some '\n' := by
      obtain hl | hl := hl
      · cases hl
      · exact getLast?_of_append [c] hl
    -- A brace in the rest would close what is opened here, and the token would hold the newline.
    by_cases hopen : c = '@' ∧ '}' ∉ tail ∧ ∃ inner, tail = '{' :: inner
    · obtain ⟨rfl, hn, inner, rfl⟩ := hopen
      right
      intro hm
      obtain ⟨before, after, rfl, hb⟩ := List.eq_append_cons_of_mem hm
      have hin : '\n' ∈ inner := by
        obtain hl | hl := hl
        · cases hl
        · simpa using List.mem_of_getLast? hl
      have ht : token? ('@' :: '{' :: inner ++ (before ++ '}' :: after)) =
          some (inner ++ before, after) := by
        refine token?_eq_some_iff.mpr ⟨by simp, ?_, ?_⟩
        · exact List.append_ne_nil_of_left_ne_nil (List.ne_nil_of_mem hin) _
        · rw [List.mem_append, not_or]
          exact ⟨List.not_mem_of_not_mem_cons hn, hb⟩
      have hb := ho (inner ++ before) (fragments_of_token? ht ▸ List.mem_cons_self)
      exact hb (List.mem_append_left _ hin)
    · have hnone (more : List Char) : token? (c :: tail ++ more) = none := by
        obtain hn | ⟨rfl, hn, htail⟩ := token?_append_eq_none ht more
        · exact hn
        · obtain rfl | htail := htail
          · simp at hl
          · exact absurd ⟨rfl, hn, htail⟩ hopen
      have ho' : OneLine (tail ++ rest) := OneLine.of_not_token? (hnone rest) ho
      exact (ih hl' ho').imp_left (.of_not_token? hnone)

end RefDoc.Reference
