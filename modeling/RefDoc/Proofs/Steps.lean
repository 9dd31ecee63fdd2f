import Mathlib.Data.List.Forall2
import Mathlib.Data.List.Perm.Basic

namespace RefDoc

section

variable {α β ε : Type u}

theorem bind_eq_ok_iff {x : Except ε α} {f : α → Except ε β} {b : β} :
    (x >>= f) = .ok b ↔ ∃ a, x = .ok a ∧ f a = .ok b := by
  cases x <;> simp [bind, Except.bind]

theorem bind_eq_error_iff {x : Except ε α} {f : α → Except ε β} {e : ε} :
    (x >>= f) = .error e ↔ x = .error e ∨ ∃ a, x = .ok a ∧ f a = .error e := by
  cases x <;> simp [bind, Except.bind]

theorem map_eq_ok_iff {x : Except ε α} {f : α → β} {b : β} :
    f <$> x = .ok b ↔ ∃ a, x = .ok a ∧ f a = b := by
  cases x <;> simp [Functor.map, Except.map]

theorem mapError_eq_ok_iff {ε' : Type u} {x : Except ε α} {f : ε → ε'} {a : α} :
    x.mapError f = .ok a ↔ x = .ok a := by
  cases x <;> simp [Except.mapError]

theorem exists_eq_ok {x : Except ε α} (h : x.isOk = true) : ∃ a, x = .ok a := by
  cases x with
  | error e => cases h
  | ok a => exact ⟨a, rfl⟩

theorem exists_map_iff {x : Except ε α} {f : α → β} :
    (∃ b, x.map f = .ok b) ↔ ∃ a, x = .ok a := by
  cases x <;> simp [Except.map]

end

theorem mapM_eq_ok_iff {α : Type u} {β ε : Type v} {f : α → Except ε β} {xs : List α}
    {ys : List β} : xs.mapM f = .ok ys ↔ List.Forall₂ (fun x y => f x = .ok y) xs ys := by
  induction xs generalizing ys with
  | nil => cases ys <;> simp [pure, Except.pure]
  | cons x xs ih =>
    rw [List.mapM_cons, List.forall₂_cons_left_iff]
    cases hx : f x with
    | error e => simp [bind, Except.bind]
    | ok y =>
      cases hxs : xs.mapM f with
      | error e => simp [bind, Except.bind, ← ih, hxs]
      | ok zs =>
        simp only [bind, Except.bind, pure, Except.pure, Except.ok.injEq, ← ih, hxs]
        constructor
        · rintro rfl
          exact ⟨y, zs, rfl, rfl, rfl⟩
        · intro hx
          obtain ⟨_, _, rfl, rfl, rfl⟩ := hx
          rfl

theorem mapM_eq_error {α : Type u} {β ε : Type v} {f : α → Except ε β} {before : List α}
    (hb : ∀ x ∈ before, ∃ y, f x = .ok y) {x : α} {e : ε} (hx : f x = .error e) (after : List α) :
    (before ++ x :: after).mapM f = .error e := by
  induction before with
  | nil =>
    rw [List.nil_append, List.mapM_cons, hx]
    rfl
  | cons first before ih =>
    obtain ⟨hfirst, hb⟩ := List.forall_mem_cons.mp hb
    obtain ⟨y, hy⟩ := hfirst
    rw [List.cons_append, List.mapM_cons, hy, ih hb]
    rfl

section

variable {α : Type u} {β : Type v} {R : α → β → Prop} {xs : List α} {ys : List β}

theorem exists_right_of_forall₂ (h : List.Forall₂ R xs ys) {x : α} (hm : x ∈ xs) :
    ∃ y ∈ ys, R x y := by
  induction h with
  | nil => cases hm
  | cons hr _ ih =>
    rcases List.mem_cons.mp hm with rfl | hm
    · exact ⟨_, List.mem_cons_self, hr⟩
    · obtain ⟨y, hy, hr⟩ := ih hm
      exact ⟨y, List.mem_cons_of_mem _ hy, hr⟩

theorem exists_left_of_forall₂ (h : List.Forall₂ R xs ys) {y : β} (hm : y ∈ ys) :
    ∃ x ∈ xs, R x y := by
  apply exists_right_of_forall₂ (R := fun y x => R x y) _ hm
  exact h.flip

theorem exists_forall₂ (h : ∀ x ∈ xs, ∃ y, R x y) : ∃ ys, List.Forall₂ R xs ys := by
  induction xs with
  | nil => exact ⟨[], .nil⟩
  | cons x xs ih =>
    obtain ⟨hx, hxs⟩ := List.forall_mem_cons.mp h
    obtain ⟨y, hy⟩ := hx
    obtain ⟨ys, hys⟩ := ih hxs
    exact ⟨y :: ys, .cons hy hys⟩

/-- Where an element is related to one value at most, lists related to it are images of one map. -/
theorem exists_map_of_forall₂ [Nonempty β] (hR : ∀ x y z, R x y → R x z → y = z) :
    ∃ f : α → β, ∀ xs ys, List.Forall₂ R xs ys → ys = xs.map f := by
  have hvalue : ∀ x, ∃ y, ∀ z, R x z → z = y := by
    intro x
    by_cases h : ∃ y, R x y
    · obtain ⟨y, hy⟩ := h
      exact ⟨y, fun z hz => hR x z y hz hy⟩
    · exact ⟨Classical.arbitrary β, fun z hz => absurd ⟨z, hz⟩ h⟩
  choose f hf using hvalue
  refine ⟨f, fun xs ys h => ?_⟩
  induction h with
  | nil => rfl
  | cons hr _ ih => rw [List.map_cons, hf _ _ hr, ih]

end

theorem exists_mapM_iff {α : Type u} {β ε : Type v} {f : α → Except ε β} {xs : List α} :
    (∃ ys, xs.mapM f = .ok ys) ↔ ∀ x ∈ xs, ∃ y, f x = .ok y := by
  simp only [mapM_eq_ok_iff]
  constructor
  · intro h x hm
    obtain ⟨ys, hf⟩ := h
    obtain ⟨y, -, hy⟩ := exists_right_of_forall₂ hf hm
    exact ⟨y, hy⟩
  · intro h
    exact exists_forall₂ h

/-- Either a step succeeds on every element of a list, or it fails on a first one. -/
theorem forall₂_or_first_error {α : Type u} {β ε : Type v} (f : α → Except ε β) (xs : List α) :
    (∃ ys, List.Forall₂ (fun x y => f x = .ok y) xs ys) ∨
      ∃ before x after e, xs = before ++ x :: after ∧ (∀ b ∈ before, ∃ y, f b = .ok y) ∧
        f x = .error e := by
  induction xs with
  | nil => exact .inl ⟨[], .nil⟩
  | cons x xs ih =>
    cases hx : f x with
    | error e => exact .inr ⟨[], x, xs, e, rfl, List.forall_mem_nil _, hx⟩
    | ok y =>
      obtain ⟨ys, hys⟩ | ⟨before, z, after, e, rfl, hb, he⟩ := ih
      · exact .inl ⟨y :: ys, .cons hx hys⟩
      · exact .inr ⟨x :: before, z, after, e, rfl, List.forall_mem_cons.mpr ⟨⟨y, hx⟩, hb⟩, he⟩

/-- The order of a list decides the order of what a step gives, not whether it succeeds. -/
theorem exists_mapM_of_perm {α : Type u} {β ε : Type v} {f : α → Except ε β} {xs ys : List α}
    {zs : List β} (hp : xs.Perm ys) (h : xs.mapM f = .ok zs) :
    ∃ ws, ys.mapM f = .ok ws ∧ zs.Perm ws := by
  obtain ⟨ws, hf, hw⟩ := List.perm_comp_forall₂ hp.symm (mapM_eq_ok_iff.mp h)
  exact ⟨ws, mapM_eq_ok_iff.mpr hf, hw.symm⟩

def FailsOnly {α : Type u} {ε : Type v} (P : ε → Prop) (x : Except ε α) : Prop :=
  ∀ e, x = .error e → P e

namespace FailsOnly

variable {α β ε : Type u} {P : ε → Prop} {x : Except ε α}

theorem ok (a : α) : FailsOnly P (.ok a : Except ε α) := nofun

theorem bind {f : α → Except ε β} (hx : FailsOnly P x) (hf : ∀ a, FailsOnly P (f a)) :
    FailsOnly P (x >>= f) := by
  intro e he
  cases x with
  | error e' =>
    cases he
    exact hx _ rfl
  | ok a => exact hf a e he

theorem map (f : α → β) (hx : FailsOnly P x) : FailsOnly P (x.map f) := by
  intro e he
  cases x with
  | error e' =>
    cases he
    exact hx _ rfl
  | ok a => cases he

theorem mapError {α : Type u} {ε ε' : Type v} {P : ε' → Prop} {f : ε → ε'} (x : Except ε α)
    (h : ∀ e, P (f e)) : FailsOnly P (x.mapError f) := by
  intro e he
  cases x with
  | error e' =>
    cases he
    exact h e'
  | ok a => cases he

theorem mapM {f : β → Except ε α} (hf : ∀ b, FailsOnly P (f b)) (xs : List β) :
    FailsOnly P (xs.mapM f) := by
  induction xs with
  | nil => exact ok []
  | cons x xs ih =>
    rw [List.mapM_cons]
    apply (hf x).bind
    intro a
    exact ih.bind fun as => ok (a :: as)

end FailsOnly

end RefDoc
