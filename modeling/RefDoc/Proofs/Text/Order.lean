import Mathlib.Data.List.Nodup
import RefDoc.Text.Order

namespace RefDoc.Text

variable {α : Type u} {key : α → String} {xs ys : List α}

theorem sortOn_eq_of_perm (h : xs.Perm ys) (hk : (xs.map key).Nodup) :
    sortOn key xs = sortOn key ys := by
  apply List.Perm.eq_of_pairwise _ (pairwise_sortOn key xs) (pairwise_sortOn key ys)
  · exact (sortOn_perm key xs).trans (h.trans (sortOn_perm key ys).symm)
  · intro a b ha hb hab hba
    have ha := (sortOn_perm key xs).mem_iff.mp ha
    have hb := h.mem_iff.mpr ((sortOn_perm key ys).mem_iff.mp hb)
    exact List.inj_on_of_nodup_map hk ha hb (le_antisymm hab hba)

theorem sort_eq_of_perm {xs ys : List String} (h : xs.Perm ys) : sort xs = sort ys := by
  apply List.Perm.eq_of_pairwise _ (pairwise_sortOn _ xs) (pairwise_sortOn _ ys)
  · exact (sort_perm xs).trans (h.trans (sort_perm ys).symm)
  · intro s t _ _ hst hts
    exact le_antisymm hst hts

def Ascending (texts : List String) : Prop := texts.Pairwise fun s t => le s t = true ∧ s ≠ t

theorem ascending_sortOn (h : (xs.map key).Nodup) : Ascending ((sortOn key xs).map key) := by
  have hnodup : ((sortOn key xs).map key).Nodup := ((sortOn_perm key xs).map key).nodup_iff.mpr h
  exact (List.pairwise_map.mpr (pairwise_sortOn key xs)).and hnodup

theorem ascending_sort {texts : List String} (h : texts.Nodup) : Ascending (sort texts) :=
  (pairwise_sortOn _ texts).and ((sort_perm texts).nodup_iff.mpr h)

theorem Ascending.nodup {texts : List String} (h : Ascending texts) : texts.Nodup :=
  h.imp fun hst => hst.2

/-- Only one list has given texts in ascending order. -/
theorem Ascending.eq_of_mem_iff {xs ys : List String} (hx : Ascending xs) (hy : Ascending ys)
    (h : ∀ s, s ∈ xs ↔ s ∈ ys) : xs = ys := by
  apply List.Perm.eq_of_pairwise _ hx hy
  · exact (List.perm_ext_iff_of_nodup hx.nodup hy.nodup).mpr h
  · intro s t _ _ hst hts
    exact le_antisymm hst.1 hts.1

theorem nodup_eraseDups [BEq α] [LawfulBEq α] (xs : List α) : xs.eraseDups.Nodup := by
  induction hn : xs.length using Nat.strongRecOn generalizing xs with
  | _ n ih =>
    cases xs with
    | nil => exact .nil
    | cons x rest =>
      rw [List.eraseDups_cons]
      apply List.nodup_cons.mpr
      constructor
      · intro hm
        simpa using (List.mem_filter.mp (List.mem_eraseDups.mp hm)).2
      · have hl := List.length_filter_le (fun y => !y == x) rest
        rw [List.length_cons] at hn
        exact ih _ (by omega) _ rfl

theorem eraseDups_perm [BEq α] [LawfulBEq α] (h : xs.Perm ys) : xs.eraseDups.Perm ys.eraseDups := by
  apply (List.perm_ext_iff_of_nodup (nodup_eraseDups xs) (nodup_eraseDups ys)).mpr
  intro x
  rw [List.mem_eraseDups, List.mem_eraseDups, h.mem_iff]

theorem eraseDups_eq_self [BEq α] [LawfulBEq α] (h : xs.Nodup) : xs.eraseDups = xs := by
  induction xs with
  | nil => rfl
  | cons x rest ih =>
    obtain ⟨hx, hrest⟩ := List.nodup_cons.mp h
    have hkeep : rest.filter (fun y => !y == x) = rest := by
      apply List.filter_eq_self.mpr
      intro y hy
      simpa using ne_of_mem_of_not_mem hy hx
    rw [List.eraseDups_cons, hkeep, ih hrest]

theorem le_refl (s : String) : le s s = true := by simpa using le_total s s

/-- Sorting keeps the order of the entries of one key. -/
theorem filter_sortOn (key : α → String) (xs : List α) (k : String) :
    (sortOn key xs).filter (key · == k) = xs.filter (key · == k) := by
  have hpairwise : (xs.filter (key · == k)).Pairwise fun a b => le (key a) (key b) = true := by
    apply List.pairwise_of_forall_mem_list
    intro a ha b hb
    have ha := (List.mem_filter.mp ha).2
    have hb := (List.mem_filter.mp hb).2
    rw [beq_iff_eq.mp ha, beq_iff_eq.mp hb]
    exact le_refl k
  have hsub : (xs.filter (key · == k)).Sublist (sortOn key xs) :=
    @List.sublist_mergeSort α (fun a b => le (key a) (key b)) xs
      (fun _ _ _ h₁ h₂ => le_trans h₁ h₂) (fun a b => le_total (key a) (key b)) _ hpairwise
      List.filter_sublist
  have hkept := hsub.filter (key · == k)
  rw [List.filter_filter] at hkept
  simp only [Bool.and_self] at hkept
  exact (hkept.eq_of_length ((sortOn_perm key xs).filter _).length_eq.symm).symm

theorem pairwise_sortOn_of_pairwise {R : α → α → Prop} (h : xs.Pairwise R) :
    (sortOn key xs).Pairwise fun a b => key a = key b → R a b := by
  rw [List.pairwise_iff_forall_sublist] at h ⊢
  intro a b hab hk
  apply h
  have hkept := hab.filter (key · == key b)
  rw [filter_sortOn] at hkept
  simp only [List.filter_cons, hk, beq_self_eq_true, if_true, List.filter_nil] at hkept
  exact hkept.trans List.filter_sublist

theorem units_append (s t : String) : units (s ++ t) = units s ++ units t := by
  simp [units]

theorem lexLe_append (us vs ws : List Nat) : lexLe (us ++ vs) (us ++ ws) = lexLe vs ws := by
  induction us with
  | nil => rfl
  | cons u us ih => simp [lexLe, ih]

theorem le_append (s t u : String) : le (s ++ t) (s ++ u) = le t u := by
  rw [le, le, units_append, units_append, lexLe_append]

theorem lexLe_cases {us vs : List Nat} (h : lexLe us vs = true) :
    us <+: vs ∨ ∀ us' vs', lexLe (us ++ us') (vs ++ vs') = true := by
  induction us generalizing vs with
  | nil => exact .inl (List.nil_prefix)
  | cons u us ih =>
    cases vs with
    | nil => cases h
    | cons v vs =>
      obtain hlt | ⟨rfl, hle⟩ := lexLe_cons_cons.mp h
      · exact .inr fun us' vs' => lexLe_cons_cons.mpr (.inl hlt)
      · obtain hstart | hle := ih hle
        · exact .inl (List.cons_prefix_cons.mpr ⟨rfl, hstart⟩)
        · exact .inr fun us' vs' => lexLe_cons_cons.mpr (.inr ⟨rfl, hle us' vs'⟩)

theorem ofUnits_units_append (s : String) (us : List Nat) :
    ofUnits (units s ++ us) = s.toList ++ ofUnits us := by
  rw [units]
  induction s.toList with
  | nil => rfl
  | cons c cs ih => rw [List.flatMap_cons, List.append_assoc, ofUnits_charUnits_append, ih,
      List.cons_append]

/-- In order, either the second text goes on behind the first, or no ending changes the order. -/
theorem le_cases {s t : String} (h : le s t = true) :
    (∃ more, t = s ++ more) ∨ ∀ u v, le (s ++ u) (t ++ v) = true := by
  obtain ⟨us, hus⟩ | h := lexLe_cases h
  · left
    refine ⟨String.ofList (ofUnits us), ?_⟩
    rw [← ofUnits_units t, ← hus, ofUnits_units_append, String.ofList_append, String.ofList_toList]
  · right
    intro u v
    rw [le, units_append, units_append]
    exact h _ _

/-- A character below the surrogates comes before another one just when it is the smaller one. -/
theorem le_ofList_cons_iff {a c : Char} (ha : a.toNat < 0xD800) (hne : a ≠ c) (as cs : List Char) :
    le (String.ofList (a :: as)) (String.ofList (c :: cs)) = true ↔ a < c := by
  have hlt : a < c ↔ a.toNat < c.toNat := Iff.rfl
  have hnat : a.toNat ≠ c.toNat := fun h => hne (Char.toNat_inj.mp h)
  have hunits : charUnits a = [a.toNat] := if_pos (Nat.lt_trans ha (by decide))
  rw [le, units, units, String.toList_ofList, String.toList_ofList, List.flatMap_cons,
    List.flatMap_cons, hunits, charUnits, hlt]
  split
  · simp [lexLe_cons_cons, hnat]
  · rw [List.cons_append, List.cons_append, lexLe_cons_cons]
    omega

end RefDoc.Text
