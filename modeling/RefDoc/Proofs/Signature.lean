import Mathlib.Data.List.Perm.Basic
import RefDoc.Proofs.Steps
import RefDoc.Proofs.Table
import RefDoc.Symbol

namespace RefDoc

namespace Signature

variable {s : Signature} {name : String}

theorem getElem?_parameters (s : Signature) (i : Nat) :
    s.parameters[i]? = (s.names[i]?).map fun name =>
      ⟨name, (defaultIndex? s.names.length s.defaults.length i).bind (s.defaults[·]?)⟩ := by
  rw [parameters, List.getElem?_mapIdx]

theorem map_name_parameters (s : Signature) : s.parameters.map Parameter.name = s.names := by
  apply List.ext_getElem?
  intro i
  rw [List.getElem?_map, getElem?_parameters, Option.map_map]
  exact Option.map_id'

theorem findIdx?_parameters (s : Signature) (name : String) :
    s.parameters.findIdx? (·.name == name) = s.names.idxOf? name := by
  rw [List.idxOf?, ← map_name_parameters, List.findIdx?_map]
  rfl

theorem bind_defaultIndex? (names index : Nat) (defaults : List String) :
    (defaultIndex? names defaults.length index).bind (defaults[·]?) =
      if names ≤ index + defaults.length then defaults[index + defaults.length - names]?
      else none := by
  rw [defaultIndex?]
  split <;> rfl

/-- The defaults that are left when the parameter at an index goes with its own. -/
def defaultsWithout (names : Nat) (defaults : List String) (i : Nat) : List String :=
  match defaultIndex? names defaults.length i with
  | none => defaults
  | some j => defaults.eraseIdx j

theorem getElem?_defaultsWithout {names i : Nat} (hi : i < names) (defaults : List String)
    (k : Nat) :
    (defaultIndex? (names - 1) (defaultsWithout names defaults i).length k).bind
        ((defaultsWithout names defaults i)[·]?) =
      (defaultIndex? names defaults.length (if k < i then k else k + 1)).bind (defaults[·]?) := by
  rw [bind_defaultIndex?, bind_defaultIndex?, defaultsWithout, defaultIndex?]
  by_cases hd : names ≤ i + defaults.length
  · have hj : i + defaults.length - names < defaults.length := by omega
    simp only [if_pos hd, List.length_eraseIdx_of_lt hj, List.getElem?_eraseIdx]
    split
    · grind
    · grind
  · simp only [if_neg hd]
    split
    · grind
    · grind

/-- A parameter goes together with its own default, and all others keep theirs. -/
theorem parameters_eraseIdx (s : Signature) {i : Nat} (hi : i < s.names.length) :
    ({ s with
        names := s.names.eraseIdx i
        defaults := defaultsWithout s.names.length s.defaults i } : Signature).parameters =
      s.parameters.eraseIdx i := by
  apply List.ext_getElem?
  intro k
  rw [List.getElem?_eraseIdx, getElem?_parameters, getElem?_parameters, getElem?_parameters]
  dsimp only
  rw [List.getElem?_eraseIdx, List.length_eraseIdx_of_lt hi]
  simp only [getElem?_defaultsWithout hi]
  split
  · rfl
  · rfl

theorem parameters_bindName (s : Signature) (name : String) :
    (s.bindName name).parameters = s.parameters.eraseP (·.name == name) := by
  rw [List.eraseP_eq_eraseIdx, findIdx?_parameters, bindName]
  cases hi : s.names.idxOf? name with
  | none => rfl
  | some i =>
    apply parameters_eraseIdx
    exact (List.findIdx?_eq_some_iff_getElem.mp hi).1

/-- What a reader sees of a signature is decided by its parameters and collectors. -/
theorem render_congr {t : Signature} (hp : s.parameters = t.parameters)
    (ha : s.varargs? = t.varargs?) (hk : s.varkw? = t.varkw?) (receivers : List String) :
    s.render receivers = t.render receivers := by
  rw [render, render, hp, ha, hk]

theorem foldl_bindName (s : Signature) (names : List String) :
    (names.foldl bindName s).parameters =
        names.foldl (fun ps name => ps.eraseP (·.name == name)) s.parameters ∧
      (names.foldl bindName s).varargs? = s.varargs? ∧
      (names.foldl bindName s).varkw? = s.varkw? := by
  induction names generalizing s with
  | nil => exact ⟨rfl, rfl, rfl⟩
  | cons name names ih =>
    obtain ⟨hp, ha, hk⟩ := ih (s.bindName name)
    rw [List.foldl_cons, List.foldl_cons, hp, ha, hk, parameters_bindName]
    refine ⟨rfl, ?_⟩
    rw [bindName]
    split <;> exact ⟨rfl, rfl⟩

theorem eraseP_name_comm (ps : List Parameter) (name name' : String) :
    (ps.eraseP (·.name == name)).eraseP (·.name == name') =
      (ps.eraseP (·.name == name')).eraseP (·.name == name) := by
  by_cases h : name = name'
  · rw [h]
  · apply List.eraseP_comm
    intro p _
    by_cases hp : p.name = name
    · exact .inr (by simpa [hp] using h)
    · exact .inl (by simpa using hp)

theorem foldl_eraseP_name_perm {names names' : List String} (h : names.Perm names')
    (ps : List Parameter) :
    names.foldl (fun ps name => ps.eraseP (·.name == name)) ps =
      names'.foldl (fun ps name => ps.eraseP (·.name == name)) ps :=
  h.foldl_eq' (fun name _ name' _ ps => eraseP_name_comm ps name name') ps

theorem render_foldl_bindName {names names' : List String} (h : names.Perm names')
    (s : Signature) (receivers : List String) :
    (names.foldl bindName s).render receivers = (names'.foldl bindName s).render receivers := by
  obtain ⟨hp, ha, hk⟩ := foldl_bindName s names
  obtain ⟨hp', ha', hk'⟩ := foldl_bindName s names'
  apply render_congr
  · rw [hp, hp', foldl_eraseP_name_perm h]
  · rw [ha, ha']
  · rw [hk, hk']

end Signature

/-- Whether two records bind the same, keywords in any order. -/
inductive Binding.Alike : Binding → Binding → Prop
  | positional (values : List Json) : Alike (.positional values) (.positional values)
  | keyword {values values' : Table Json} (h : values.Agree Eq values') :
    Alike (.keyword values) (.keyword values')

namespace Binding

variable {bindings bindings' : List Binding}

theorem counts_eq (h : List.Forall₂ Alike bindings bindings') :
    bindings.filterMap count? = bindings'.filterMap count? := by
  induction h with
  | nil => rfl
  | cons hb _ ih =>
    cases hb with
    | positional values => rw [List.filterMap_cons, List.filterMap_cons, ih]
    | keyword => exact ih

theorem keywords_perm (h : List.Forall₂ Alike bindings bindings') :
    (bindings.flatMap keywords).Perm (bindings'.flatMap keywords) := by
  induction h with
  | nil => exact .nil
  | cons hb _ ih =>
    rw [List.flatMap_cons, List.flatMap_cons]
    cases hb with
    | positional values => exact ih.append_left []
    | keyword hk => exact hk.keys_perm.append ih

end Binding

structure Callable.Alike (c d : Callable) : Prop where
  signature : c.signature = d.signature
  bindings : List.Forall₂ Binding.Alike c.bindings d.bindings

theorem Callable.Alike.render_free {c d : Callable} (h : c.Alike d) (receivers : List String) :
    (do return (← c.free).render receivers) =
      (do return (← d.free).render receivers : Except OverBound String) := by
  rw [free, free, Signature.bind, Signature.bind, h.signature, Binding.counts_eq h.bindings]
  cases (d.bindings.filterMap Binding.count?).foldlM Signature.bindFirst d.signature with
  | error e => rfl
  | ok rest =>
    apply congrArg Except.ok
    exact Signature.render_foldl_bindName (Binding.keywords_perm h.bindings) rest receivers

structure Symbol.Alike (s t : Symbol) : Prop where
  kind : s.kind = t.kind
  docstring? : s.docstring? = t.docstring?
  callable? : Option.Rel Callable.Alike s.callable? t.callable?
  definedIn? : s.definedIn? = t.definedIn?

theorem Symbol.Alike.shownSignature {s t : Symbol} (h : s.Alike t) (receivers : List String) :
    s.shownSignature receivers = t.shownSignature receivers := by
  have hc := h.callable?
  rw [Symbol.shownSignature, Symbol.shownSignature]
  generalize s.callable? = c?, t.callable? = d? at hc ⊢
  cases hc with
  | none => rfl
  | some hc => exact hc.render_free receivers

end RefDoc
