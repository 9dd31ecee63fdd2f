import RefDoc.Proofs.Callable

namespace RefDoc

namespace Binding

def total (bindings : List Binding) : Nat := (bindings.filterMap count?).sum

variable {room : Nat} {values : List Json} {bindings : List Binding} {e : OverBound}

@[simp] theorem total_nil : total [] = 0 := rfl

@[simp] theorem total_cons_keyword (table : Table Json) (bindings : List Binding) :
    total (keyword table :: bindings) = total bindings := rfl

@[simp] theorem total_cons_positional (values : List Json) (bindings : List Binding) :
    total (positional values :: bindings) = values.length + total bindings :=
  List.sum_cons

/-- Whether an error tells of the first record that asks for more than the others leave. -/
def FirstExcess (room : Nat) (bindings : List Binding) (e : OverBound) : Prop :=
  ∃ before values after, bindings = before ++ positional values :: after ∧
    total before ≤ room ∧ room < total before + values.length ∧
    e = ⟨room - total before, values.length⟩

theorem FirstExcess.declared_lt_bound (h : FirstExcess room bindings e) : e.declared < e.bound := by
  obtain ⟨before, values, after, -, hb, hx, rfl⟩ := h
  dsimp only
  omega

theorem firstExcess_cons_keyword {table : Table Json} :
    FirstExcess room (keyword table :: bindings) e ↔ FirstExcess room bindings e := by
  constructor
  · intro h
    obtain ⟨before, values, after, hs, hb, hx, he⟩ := h
    cases before with
    | nil => cases hs
    | cons first before =>
      obtain ⟨rfl, rfl⟩ := List.cons.inj hs
      exact ⟨before, values, after, rfl, hb, hx, he⟩
  · intro h
    obtain ⟨before, values, after, rfl, hb, hx, he⟩ := h
    exact ⟨keyword table :: before, values, after, rfl, hb, hx, he⟩

theorem firstExcess_cons_of_lt (h : room < values.length) :
    FirstExcess room (positional values :: bindings) e ↔ e = ⟨room, values.length⟩ := by
  constructor
  · intro hx
    obtain ⟨before, later, after, hs, hb, -, rfl⟩ := hx
    cases before with
    | nil =>
      obtain ⟨hv, -⟩ := List.cons.inj hs
      cases hv
      rfl
    | cons first before =>
      obtain ⟨rfl, -⟩ := List.cons.inj hs
      rw [total_cons_positional] at hb
      omega
  · rintro rfl
    exact ⟨[], values, bindings, rfl, Nat.zero_le room, by simpa using h, rfl⟩

theorem firstExcess_cons_of_le (h : values.length ≤ room) :
    FirstExcess room (positional values :: bindings) e ↔
      FirstExcess (room - values.length) bindings e := by
  constructor
  · intro hx
    obtain ⟨before, later, after, hs, hb, hx, rfl⟩ := hx
    cases before with
    | nil =>
      obtain ⟨hv, -⟩ := List.cons.inj hs
      cases hv
      rw [total_nil] at hx
      omega
    | cons first before =>
      obtain ⟨rfl, rfl⟩ := List.cons.inj hs
      rw [total_cons_positional] at hb hx ⊢
      exact ⟨before, later, after, rfl, by omega, by omega, by rw [Nat.sub_add_eq]⟩
  · intro hx
    obtain ⟨before, later, after, rfl, hb, hx, rfl⟩ := hx
    refine ⟨positional values :: before, later, after, rfl, ?_, ?_, ?_⟩
    · rw [total_cons_positional]
      omega
    · rw [total_cons_positional]
      omega
    · rw [total_cons_positional, Nat.sub_add_eq]

theorem exists_firstExcess_iff :
    (∃ e, FirstExcess room bindings e) ↔ room < total bindings := by
  induction bindings generalizing room with
  | nil => simp [FirstExcess]
  | cons binding bindings ih =>
    cases binding with
    | keyword table => simp only [firstExcess_cons_keyword, ih, total_cons_keyword]
    | positional values =>
      rw [total_cons_positional]
      by_cases hc : values.length ≤ room
      · simp only [firstExcess_cons_of_le hc, ih]
        omega
      · simp only [firstExcess_cons_of_lt (Nat.lt_of_not_le hc), exists_eq, true_iff]
        omega

end Binding

namespace Signature

open Binding

variable {s : Signature} {e : OverBound}

theorem bindFirst_eq_error_iff {count : Nat} : s.bindFirst count = .error e ↔
    s.names.length < count ∧ e = ⟨s.names.length, count⟩ := by
  rw [bindFirst]
  split
  · next h => simp [h, eq_comm]
  · next h => simp [h]

theorem foldlM_bindFirst_eq_error_iff {bindings : List Binding} :
    (bindings.filterMap count?).foldlM bindFirst s = .error e ↔
      FirstExcess s.names.length bindings e := by
  -- Keyword records bind nothing by position, so the run over counts leaves them out.
  induction bindings generalizing s with
  | nil => simp [FirstExcess, pure, Except.pure]
  | cons binding bindings ih =>
    cases binding with
    | keyword table => exact ih.trans firstExcess_cons_keyword.symm
    | positional values =>
      change (values.length :: bindings.filterMap count?).foldlM bindFirst s = .error e ↔ _
      rw [List.foldlM_cons]
      by_cases hc : values.length ≤ s.names.length
      · have hfirst := bindFirst_eq_ok_iff.mpr ⟨hc, rfl⟩
        rw [hfirst, firstExcess_cons_of_le hc, ← List.length_drop]
        exact ih
      · rw [firstExcess_cons_of_lt (Nat.lt_of_not_le hc), bind_eq_error_iff]
        simp only [bindFirst_eq_error_iff, bindFirst_eq_ok_iff, hc]
        simp [Nat.lt_of_not_le hc]

theorem bind_eq_error_iff_firstExcess {bindings : List Binding} :
    s.bind bindings = .error e ↔ FirstExcess s.names.length bindings e := by
  rw [← foldlM_bindFirst_eq_error_iff, bind, bind_eq_error_iff]
  simp [pure, Except.pure]

theorem exists_bind_iff {bindings : List Binding} :
    (∃ rest, s.bind bindings = .ok rest) ↔ total bindings ≤ s.names.length := by
  have h : (∃ e, s.bind bindings = .error e) ↔ s.names.length < total bindings := by
    simp only [bind_eq_error_iff_firstExcess, exists_firstExcess_iff]
  rw [← Nat.not_lt, ← h]
  cases s.bind bindings with
  | error e => simp
  | ok rest => simp

/-- Binding fails just when more values are bound than there are names, at the first such record. -/
theorem bind_exceeds_iff (s : Signature) (bindings : List Binding) :
    ((∃ e, s.bind bindings = .error e) ↔ s.names.length < total bindings) ∧
      ∀ e, (s.bind bindings = .error e ↔ ∃ before values after,
          bindings = before ++ positional values :: after ∧ total before ≤ s.names.length ∧
            s.names.length < total before + values.length ∧
            e = ⟨s.names.length - total before, values.length⟩) ∧
        (s.bind bindings = .error e → e.declared < e.bound) := by
  constructor
  · simp only [bind_eq_error_iff_firstExcess, exists_firstExcess_iff]
  · intro e
    refine ⟨bind_eq_error_iff_firstExcess, fun h => ?_⟩
    exact (bind_eq_error_iff_firstExcess.mp h).declared_lt_bound

theorem bind_exceeds_behind_keyword :
    let s : Signature := ⟨["a", "b", "c"], some "rest", none, ["0"]⟩
    let bindings : List Binding :=
      [.positional [.null], .keyword (.ofList [("b", .null)]), .positional [.null, .null, .null]]
    s.bind bindings = .error ⟨2, 3⟩ ∧ s.names.length < total bindings ∧ 2 < 3 := by
  intro s bindings
  obtain ⟨hiff, he⟩ := bind_exceeds_iff s bindings
  have h : s.bind bindings = .error ⟨2, 3⟩ :=
    (he ⟨2, 3⟩).1.mpr ⟨[.positional [.null], .keyword (.ofList [("b", .null)])],
      [.null, .null, .null], [], rfl, by decide, by decide, rfl⟩
  exact ⟨h, hiff.mp ⟨_, h⟩, (he ⟨2, 3⟩).2 h⟩

end Signature

end RefDoc
