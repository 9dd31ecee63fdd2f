import Mathlib.Algebra.GroupWithZero.Nat
import RefDoc.Proofs.Signature

namespace RefDoc

def Parameter.written (p : Parameter) : String := p.name ++ p.default?.elim "" ("=" ++ ·)

theorem Parameter.render_eq_written (p : Parameter) : p.render = p.written := by
  obtain ⟨name, default?⟩ := p
  cases default? with
  | none => exact String.append_empty.symm
  | some value => exact String.append_assoc

namespace Signature

/-- The parameters, where the place of a default is counted from the first name that has one. -/
def aligned (s : Signature) : List Parameter :=
  s.names.mapIdx fun i name =>
    let place : Int := i - ((s.names.length : Int) - s.defaults.length)
    ⟨name, if 0 ≤ place then s.defaults[place.toNat]? else none⟩

theorem aligned_eq_parameters (s : Signature) : s.aligned = s.parameters := by
  rw [aligned, parameters]
  congr 1
  funext i name
  rw [bind_defaultIndex?]
  have hplace : (0 : Int) ≤ i - ((s.names.length : Int) - s.defaults.length) ↔
      s.names.length ≤ i + s.defaults.length := by omega
  have hindex : ((i : Int) - ((s.names.length : Int) - s.defaults.length)).toNat =
      i + s.defaults.length - s.names.length := by omega
  simp only [hplace, hindex]

theorem getElem?_drop_defaults {names count : Nat} (h : count ≤ names) (defaults : List String)
    (k : Nat) :
    (defaultIndex? (names - count) (defaults.drop (count + defaults.length - names)).length k).bind
        ((defaults.drop (count + defaults.length - names))[·]?) =
      (defaultIndex? names defaults.length (count + k)).bind (defaults[·]?) := by
  rw [bind_defaultIndex?, bind_defaultIndex?, List.length_drop, List.getElem?_drop]
  by_cases hd : names ≤ count + k + defaults.length
  · rw [if_pos (by omega), if_pos hd]
    congr 1
    omega
  · rw [if_neg (by omega), if_neg hd]

theorem bindFirst_eq_ok_iff {s t : Signature} {count : Nat} : s.bindFirst count = .ok t ↔
    count ≤ s.names.length ∧
      { s with
        names := s.names.drop count
        defaults := s.defaults.drop (count + s.defaults.length - s.names.length) } = t := by
  rw [bindFirst]
  split
  · next hc => simp [Nat.not_le.mpr hc]
  · next hc => simp [Nat.not_lt.mp hc]

theorem parameters_bindFirst {s t : Signature} {count : Nat} (h : s.bindFirst count = .ok t) :
    t.parameters = s.parameters.drop count := by
  obtain ⟨hc, rfl⟩ := bindFirst_eq_ok_iff.mp h
  apply List.ext_getElem?
  intro k
  rw [List.getElem?_drop, getElem?_parameters, getElem?_parameters]
  dsimp only
  simp only [List.getElem?_drop, List.length_drop, ← getElem?_drop_defaults hc]

theorem foldlM_bindFirst {s t : Signature} {counts : List Nat}
    (h : counts.foldlM bindFirst s = .ok t) :
    t.parameters = s.parameters.drop counts.sum ∧ t.varargs? = s.varargs? ∧
      t.varkw? = s.varkw? := by
  induction counts generalizing s with
  | nil =>
    cases h
    exact ⟨rfl, rfl, rfl⟩
  | cons count counts ih =>
    rw [List.foldlM_cons, bind_eq_ok_iff] at h
    obtain ⟨rest, hfirst, hrest⟩ := h
    obtain ⟨hp, ha, hk⟩ := ih hrest
    rw [hp, ha, hk, parameters_bindFirst hfirst, List.drop_drop, List.sum_cons]
    obtain ⟨-, rfl⟩ := bindFirst_eq_ok_iff.mp hfirst
    exact ⟨rfl, rfl, rfl⟩

theorem collector_eq (stars : String) (name? : Option String) :
    collector stars name? = (name?.filter (· ≠ "")).toList.map (stars ++ ·) := by
  cases name? with
  | none => rfl
  | some name =>
    rw [collector, Option.filter_some]
    by_cases hn : name = "" <;> simp [hn]

theorem dropReceiver_nil (ps : List Parameter) : dropReceiver [] ps = ps := by
  cases ps <;> rfl

theorem render_nil (s : Signature) :
    s.render [] = "(" ++ String.intercalate ", " (s.aligned.map Parameter.written ++
      (s.varargs?.filter (· ≠ "")).toList.map ("*" ++ ·) ++
      (s.varkw?.filter (· ≠ "")).toList.map ("**" ++ ·)) ++ ")" := by
  rw [render, dropReceiver_nil, collector_eq, collector_eq, aligned_eq_parameters,
    funext Parameter.render_eq_written]

/-- What binding leaves, each parameter beside its own default. -/
theorem aligned_bind {s rest : Signature} {bindings : List Binding}
    (h : s.bind bindings = .ok rest) :
    let bound := (bindings.filterMap Binding.count?).sum
    let left := (bindings.flatMap Binding.keywords).foldl
      (fun ps keyword => ps.eraseP (·.name == keyword)) (s.aligned.drop bound)
    rest.aligned = left ∧ rest.varargs? = s.varargs? ∧ rest.varkw? = s.varkw? ∧
      rest.render [] = "(" ++ String.intercalate ", " (left.map Parameter.written ++
        (s.varargs?.filter (· ≠ "")).toList.map ("*" ++ ·) ++
        (s.varkw?.filter (· ≠ "")).toList.map ("**" ++ ·)) ++ ")" := by
  intro bound left
  obtain ⟨unnamed, hfirst, hnames⟩ := bind_eq_ok_iff.mp h
  cases hnames
  obtain ⟨hp, ha, hk⟩ := foldlM_bindFirst hfirst
  obtain ⟨hp', ha', hk'⟩ := foldl_bindName unnamed (bindings.flatMap Binding.keywords)
  have hleft : ((bindings.flatMap Binding.keywords).foldl bindName unnamed).aligned = left := by
    rw [aligned_eq_parameters, hp', hp, ← aligned_eq_parameters]
  refine ⟨hleft, ha'.trans ha, hk'.trans hk, ?_⟩
  rw [render_nil, hleft, ha', ha, hk', hk]

theorem aligned_bind_repeatedName :
    let s : Signature := ⟨["a", "b", "a"], some "rest", some "", ["0", "1", "2", "3"]⟩
    let bindings : List Binding :=
      [.keyword (.ofList [("a", .null), ("c", .null)]), .positional [.null]]
    s.bind bindings = .ok ⟨["b"], some "rest", some "", ["2"]⟩ ∧
      s.aligned = [⟨"a", some "1"⟩, ⟨"b", some "2"⟩, ⟨"a", some "3"⟩] ∧
      (Signature.mk ["b"] (some "rest") (some "") ["2"]).aligned = [⟨"b", some "2"⟩] ∧
      (Signature.mk ["b"] (some "rest") (some "") ["2"]).render [] = "(b=2, *rest)" := by
  intro s bindings
  have h : s.bind bindings = .ok ⟨["b"], some "rest", some "", ["2"]⟩ := by rfl
  obtain ⟨haligned, -, -, hrender⟩ := aligned_bind h
  refine ⟨h, by decide, haligned.trans (by decide), hrender.trans (by decide)⟩

end Signature

end RefDoc
