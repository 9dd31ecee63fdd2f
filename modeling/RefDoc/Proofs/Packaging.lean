import RefDoc.Proofs.OverBound

namespace RefDoc.Signature

open Binding

variable {s t rest : Signature}

theorem parameters_cons (name : String) (names : List String) (varargs? varkw? : Option String)
    (defaults : List String) :
    (Signature.mk (name :: names) varargs? varkw? defaults).parameters =
      ⟨name, (defaultIndex? (names.length + 1) defaults.length 0).bind (defaults[·]?)⟩ ::
        (Signature.mk names varargs? varkw?
          (defaults.drop (defaults.length - names.length))).parameters := by
  have hfirst : (Signature.mk (name :: names) varargs? varkw? defaults).bindFirst 1 =
      .ok ⟨names, varargs?, varkw?, defaults.drop (defaults.length - names.length)⟩ := by
    apply bindFirst_eq_ok_iff.mpr
    refine ⟨Nat.le_add_left 1 names.length, ?_⟩
    simp only [List.drop_succ_cons, List.drop_zero, List.length_cons]
    congr 2
    omega
  rw [parameters_bindFirst hfirst, parameters, List.mapIdx_cons]
  rfl

theorem filterMap_default?_parameters (h : s.defaults.length ≤ s.names.length) :
    s.parameters.filterMap Parameter.default? = s.defaults := by
  obtain ⟨names, varargs?, varkw?, defaults⟩ := s
  dsimp only at h ⊢
  induction names generalizing defaults with
  | nil =>
    obtain rfl := List.eq_nil_of_length_eq_zero (Nat.le_zero.mp h)
    rfl
  | cons name names ih =>
    rw [List.length_cons] at h
    rw [parameters_cons]
    -- The first name has a default only where every other name has one too.
    by_cases hd : defaults.length ≤ names.length
    · have hnone : defaultIndex? (names.length + 1) defaults.length 0 = none := if_neg (by omega)
      rw [hnone, Nat.sub_eq_zero_of_le hd, List.drop_zero]
      exact ih defaults hd
    · cases defaults with
      | nil => exact absurd (Nat.zero_le names.length) hd
      | cons value defaults =>
        rw [List.length_cons] at h hd
        have hlength : defaults.length = names.length := by omega
        have hsome : defaultIndex? (names.length + 1) (value :: defaults).length 0 = some 0 := by
          rw [List.length_cons, hlength, defaultIndex?, if_pos (by omega)]
          congr 1
          omega
        have hrest : (value :: defaults).length - names.length = 1 := by
          rw [List.length_cons, hlength]
          omega
        rw [hsome, hrest]
        exact congrArg (value :: ·) (ih defaults (Nat.le_of_eq hlength))

/-- Where every default has a name, a signature is decided by its parameters and collectors. -/
theorem eq_of_parameters (hs : s.defaults.length ≤ s.names.length)
    (ht : t.defaults.length ≤ t.names.length) (hp : s.parameters = t.parameters)
    (ha : s.varargs? = t.varargs?) (hk : s.varkw? = t.varkw?) : s = t := by
  have hnames : s.names = t.names := by
    rw [← map_name_parameters s, hp, map_name_parameters t]
  have hdefaults : s.defaults = t.defaults := by
    rw [← filterMap_default?_parameters hs, hp, filterMap_default?_parameters ht]
  obtain ⟨names, varargs?, varkw?, defaults⟩ := s
  obtain rfl : names = t.names := hnames
  obtain rfl : varargs? = t.varargs? := ha
  obtain rfl : varkw? = t.varkw? := hk
  obtain rfl : defaults = t.defaults := hdefaults
  rfl

theorem defaults_le_bindFirst {count : Nat} (h : s.bindFirst count = .ok t) :
    t.defaults.length ≤ t.names.length := by
  obtain ⟨hc, rfl⟩ := bindFirst_eq_ok_iff.mp h
  simp only [List.length_drop]
  omega

section

variable (hs : s.defaults.length ≤ s.names.length)
include hs

theorem defaults_le_bindName (name : String) :
    (s.bindName name).defaults.length ≤ (s.bindName name).names.length := by
  rw [bindName]
  cases hi : s.names.idxOf? name with
  | none => exact hs
  | some i =>
    have hlt : i < s.names.length := (List.findIdx?_eq_some_iff_getElem.mp hi).1
    dsimp only
    rw [List.length_eraseIdx_of_lt hlt, defaultIndex?]
    split
    · next hnone =>
      split at hnone
      · cases hnone
      · omega
    · next j hsome =>
      split at hsome
      · obtain rfl := Option.some.inj hsome
        rw [List.length_eraseIdx_of_lt (by omega)]
        omega
      · cases hsome

theorem defaults_le_foldlM {counts : List Nat} (h : counts.foldlM bindFirst s = .ok t) :
    t.defaults.length ≤ t.names.length := by
  induction counts generalizing s with
  | nil =>
    cases h
    exact hs
  | cons count counts ih =>
    rw [List.foldlM_cons, bind_eq_ok_iff] at h
    obtain ⟨next, hfirst, hrest⟩ := h
    exact ih (defaults_le_bindFirst hfirst) hrest

theorem defaults_le_foldl (names : List String) :
    (names.foldl bindName s).defaults.length ≤ (names.foldl bindName s).names.length := by
  induction names generalizing s with
  | nil => exact hs
  | cons name names ih => exact ih (defaults_le_bindName hs name)

theorem defaults_le_bind {bindings : List Binding} (h : s.bind bindings = .ok rest) :
    rest.defaults.length ≤ rest.names.length := by
  obtain ⟨unnamed, hfirst, hnames⟩ := bind_eq_ok_iff.mp h
  cases hnames
  exact defaults_le_foldl (defaults_le_foldlM hs hfirst) _

end

theorem parameters_bind {bindings : List Binding} (h : s.bind bindings = .ok rest) :
    rest.parameters = (bindings.flatMap keywords).foldl
        (fun ps keyword => ps.eraseP (·.name == keyword)) (s.parameters.drop (total bindings)) ∧
      rest.varargs? = s.varargs? ∧ rest.varkw? = s.varkw? := by
  obtain ⟨unnamed, hfirst, hnames⟩ := bind_eq_ok_iff.mp h
  cases hnames
  obtain ⟨hp, ha, hk⟩ := foldlM_bindFirst hfirst
  obtain ⟨hp', ha', hk'⟩ := foldl_bindName unnamed (bindings.flatMap keywords)
  rw [hp', ha', hk', hp, ha, hk]
  exact ⟨rfl, rfl, rfl⟩

/-- What is bound decides what is left, however it is packed into records. -/
theorem bind_ignores_packaging (s : Signature) {bindings bindings' : List Binding}
    (hcount : total bindings = total bindings')
    (hkeywords : (bindings.flatMap keywords).Perm (bindings'.flatMap keywords)) :
    ((∃ rest, s.bind bindings = .ok rest) ↔ ∃ rest, s.bind bindings' = .ok rest) ∧
    ∀ rest rest', s.bind bindings = .ok rest → s.bind bindings' = .ok rest' →
      (∀ receivers, rest.render receivers = rest'.render receivers) ∧
      (s.defaults.length ≤ s.names.length → rest = rest') := by
  constructor
  · rw [exists_bind_iff, exists_bind_iff, hcount]
  · intro rest rest' h h'
    obtain ⟨hp, ha, hk⟩ := parameters_bind h
    obtain ⟨hp', ha', hk'⟩ := parameters_bind h'
    have hparameters : rest.parameters = rest'.parameters := by
      rw [hp, hp', hcount, foldl_eraseP_name_perm hkeywords]
    have hvarargs : rest.varargs? = rest'.varargs? := ha.trans ha'.symm
    have hvarkw : rest.varkw? = rest'.varkw? := hk.trans hk'.symm
    constructor
    · exact render_congr hparameters hvarargs hvarkw
    · intro hs
      exact eq_of_parameters (defaults_le_bind hs h) (defaults_le_bind hs h') hparameters hvarargs
        hvarkw

theorem bind_ignores_packaging_split :
    let s : Signature := ⟨["self", "a", "b", "a", "c"], none, some "rest", ["0", "1", "2"]⟩
    let bindings : List Binding :=
      [.keyword (.ofList [("a", .null), ("c", .null)]), .positional [.null, .null],
        .keyword (.ofList [("a", .null)])]
    let bindings' : List Binding :=
      [.positional [.null], .keyword (.ofList [("a", .null)]), .positional [], .positional [.null],
        .keyword (.ofList [("c", .null), ("a", .null)]), .keyword .empty]
    total bindings = total bindings' ∧
      (bindings.flatMap keywords).Perm (bindings'.flatMap keywords) ∧
      s.defaults.length ≤ s.names.length ∧
      s.bind bindings = .ok ⟨["b"], none, some "rest", ["0"]⟩ ∧
      s.bind bindings' = .ok ⟨["b"], none, some "rest", ["0"]⟩ := by
  intro s bindings bindings'
  have hcount : total bindings = total bindings' := rfl
  have hkeywords : (bindings.flatMap keywords).Perm (bindings'.flatMap keywords) := by
    decide
  have hs : s.defaults.length ≤ s.names.length := by decide
  have h : s.bind bindings = .ok ⟨["b"], none, some "rest", ["0"]⟩ := by rfl
  obtain ⟨hiff, hrest⟩ := bind_ignores_packaging s hcount hkeywords
  obtain ⟨rest', h'⟩ := hiff.mp ⟨_, h⟩
  obtain ⟨-, heq⟩ := hrest _ _ h h'
  rw [← heq hs] at h'
  exact ⟨hcount, hkeywords, hs, h, h'⟩

example : let s : Signature := ⟨["a"], none, none, ["0", "1"]⟩
    s.bind [] = .ok s ∧ s.bind [.positional []] = .ok ⟨["a"], none, none, ["1"]⟩ := by
  decide

end RefDoc.Signature
