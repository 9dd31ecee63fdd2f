import RefDoc.Text.Utf16

namespace RefDoc.Text

def lexLe : List Nat → List Nat → Bool
  | [], _ => true
  | _ :: _, [] => false
  | a :: as, b :: bs => a < b || (a == b && lexLe as bs)

theorem lexLe_cons_cons {a b : Nat} {as bs : List Nat} :
    lexLe (a :: as) (b :: bs) = true ↔ a < b ∨ (a = b ∧ lexLe as bs = true) := by
  simp [lexLe]

theorem lexLe_trans {xs ys zs : List Nat} (h₁ : lexLe xs ys = true) (h₂ : lexLe ys zs = true) :
    lexLe xs zs = true := by
  induction xs generalizing ys zs with
  | nil => rfl
  | cons x xs ih =>
    cases ys with
    | nil => cases h₁
    | cons y ys =>
      cases zs with
      | nil => cases h₂
      | cons z zs =>
        rw [lexLe_cons_cons] at h₁ h₂ ⊢
        obtain h₁ | ⟨rfl, h₁⟩ := h₁
        · obtain h₂ | ⟨rfl, -⟩ := h₂
          · exact .inl (Nat.lt_trans h₁ h₂)
          · exact .inl h₁
        · obtain h₂ | ⟨rfl, h₂⟩ := h₂
          · exact .inl h₂
          · exact .inr ⟨rfl, ih h₁ h₂⟩

theorem lexLe_total (xs ys : List Nat) : lexLe xs ys = true ∨ lexLe ys xs = true := by
  induction xs generalizing ys with
  | nil => exact .inl rfl
  | cons x xs ih =>
    cases ys with
    | nil => exact .inr rfl
    | cons y ys =>
      rw [lexLe_cons_cons, lexLe_cons_cons]
      obtain h | rfl | h := Nat.lt_trichotomy x y
      · exact .inl (.inl h)
      · exact (ih ys).imp (fun h => .inr ⟨rfl, h⟩) fun h => .inr ⟨rfl, h⟩
      · exact .inr (.inl h)

theorem lexLe_antisymm {xs ys : List Nat} (h₁ : lexLe xs ys = true) (h₂ : lexLe ys xs = true) :
    xs = ys := by
  induction xs generalizing ys with
  | nil =>
    cases ys with
    | nil => rfl
    | cons y ys => cases h₂
  | cons x xs ih =>
    cases ys with
    | nil => cases h₁
    | cons y ys =>
      rw [lexLe_cons_cons] at h₁ h₂
      obtain h₁ | ⟨rfl, h₁⟩ := h₁
      · omega
      · obtain h₂ | ⟨-, h₂⟩ := h₂
        · omega
        · rw [ih h₁ h₂]

/-- Not later than, by code units. -/
def le (s t : String) : Bool := lexLe (units s) (units t)

/-- Ascending order; equal keys keep their order. -/
def sortOn {α : Type u} (key : α → String) (xs : List α) : List α :=
  xs.mergeSort fun a b => le (key a) (key b)

def sort (xs : List String) : List String := sortOn (fun s => s) xs

theorem le_trans {s t u : String} (h₁ : le s t = true) (h₂ : le t u = true) : le s u = true :=
  lexLe_trans h₁ h₂

theorem le_total (s t : String) : (le s t || le t s) = true := by
  rw [Bool.or_eq_true]
  exact lexLe_total _ _

theorem le_antisymm {s t : String} (h₁ : le s t = true) (h₂ : le t s = true) : s = t :=
  units_inj.mp (lexLe_antisymm h₁ h₂)

theorem sortOn_perm {α : Type u} (key : α → String) (xs : List α) : (sortOn key xs).Perm xs :=
  List.mergeSort_perm _ _

theorem sort_perm (xs : List String) : (sort xs).Perm xs :=
  sortOn_perm (fun s => s) xs

theorem pairwise_sortOn {α : Type u} (key : α → String) (xs : List α) :
    (sortOn key xs).Pairwise fun a b => le (key a) (key b) = true :=
  @List.pairwise_mergeSort α (fun a b => le (key a) (key b))
    (fun _ _ _ h₁ h₂ => le_trans h₁ h₂) (fun a b => le_total (key a) (key b)) xs

@[simp] theorem mem_sort {s : String} {xs : List String} : s ∈ sort xs ↔ s ∈ xs :=
  (sort_perm xs).mem_iff

end RefDoc.Text
