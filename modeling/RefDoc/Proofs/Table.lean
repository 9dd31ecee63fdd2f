import Mathlib.Data.List.Nodup
import RefDoc.Table.Lemmas

namespace RefDoc.Table

variable {α : Type u} {β : Type v}

theorem find?_foldl_insert (entries : List (String × α)) (t : Table α) (key : String) :
    (entries.foldl (fun t (key, value) => t.insert key value) t).find? key =
      (((entries.filter (·.1 == key)).getLast?).map Prod.snd).or (t.find? key) := by
  induction entries generalizing t with
  | nil => rfl
  | cons entry rest ih =>
    obtain ⟨k, value⟩ := entry
    rw [List.foldl_cons, ih, find?_insert]
    by_cases h : key = k
    · subst h
      rw [List.filter_cons_of_pos (by simp), List.getLast?_cons, if_pos rfl]
      cases (rest.filter (·.1 == key)).getLast? <;> rfl
    · rw [List.filter_cons_of_neg (by simpa using Ne.symm h), if_neg h]

theorem find?_ofList (entries : List (String × α)) (key : String) :
    (ofList entries).find? key = ((entries.filter (·.1 == key)).getLast?).map Prod.snd := by
  rw [ofList, find?_foldl_insert, find?_empty, Option.or_none]

/-- The last entry of a key gives its value. -/
theorem find?_ofList_eq_some_iff {entries : List (String × α)} {key : String} {value : α} :
    (ofList entries).find? key = some value ↔ ∃ earlier later,
      entries = earlier ++ (key, value) :: later ∧ ∀ entry ∈ later, entry.1 ≠ key := by
  rw [find?_ofList, ← List.head?_reverse, ← List.filter_reverse, List.head?_filter,
    Option.map_eq_some_iff]
  constructor
  · intro h
    obtain ⟨⟨k, v⟩, hf, rfl⟩ := h
    obtain ⟨hk, later, earlier, he, hl⟩ := List.find?_eq_some_iff_append.mp hf
    obtain rfl : k = key := beq_iff_eq.mp hk
    refine ⟨earlier.reverse, later.reverse, ?_, ?_⟩
    · simpa using congrArg List.reverse he
    · simpa using hl
  · intro h
    obtain ⟨earlier, later, rfl, hl⟩ := h
    refine ⟨(key, value), List.find?_eq_some_iff_append.mpr ⟨beq_self_eq_true _, ?_⟩, rfl⟩
    exact ⟨later.reverse, earlier.reverse, by simp, by simpa using hl⟩

theorem mem_ofList {entries : List (String × α)} {key : String} :
    key ∈ ofList entries ↔ key ∈ entries.map Prod.fst := by
  rw [mem_iff_isSome, find?_ofList, Option.isSome_map, List.getLast?_isSome]
  simp [List.filter_eq_nil_iff]

theorem mem_of_mem_ofList {entries : List (String × α)} {entry : String × α}
    (h : entry ∈ (ofList entries).entries) : entry ∈ entries := by
  obtain ⟨key, value⟩ := entry
  rw [← find?_eq_some_iff, find?_ofList, Option.map_eq_some_iff] at h
  obtain ⟨last, hlast, rfl⟩ := h
  have hm := List.mem_filter.mp (List.mem_of_getLast? hlast)
  obtain rfl : last.1 = key := beq_iff_eq.mp hm.2
  exact hm.1

theorem insertEntry_of_not_mem {key : String} (value : α) {entries : List (String × α)}
    (h : key ∉ entries.map Prod.fst) :
    insertEntry key value entries = entries ++ [(key, value)] := by
  induction entries with
  | nil => rfl
  | cons entry rest ih =>
    obtain ⟨hk, hrest⟩ := List.ne_and_not_mem_of_not_mem_cons h
    rw [insertEntry, if_neg (Ne.symm hk), ih hrest, List.cons_append]

theorem entries_foldl_insert (entries : List (String × α)) (t : Table α)
    (h : (t.keys ++ entries.map Prod.fst).Nodup) :
    (entries.foldl (fun t (key, value) => t.insert key value) t).entries =
      t.entries ++ entries := by
  induction entries generalizing t with
  | nil => exact (List.append_nil t.entries).symm
  | cons entry rest ih =>
    obtain ⟨key, value⟩ := entry
    have hkey : key ∉ t.keys := fun hm =>
      (List.nodup_append.mp h).2.2 key hm key List.mem_cons_self rfl
    have hentries : (t.insert key value).entries = t.entries ++ [(key, value)] :=
      insertEntry_of_not_mem value hkey
    rw [List.foldl_cons, ih, hentries, List.append_assoc]
    · rfl
    · rw [keys_insert, if_neg (mt mem_iff_mem_keys.mp hkey), List.append_assoc]
      exact h

theorem entries_ofList {entries : List (String × α)} (h : (entries.map Prod.fst).Nodup) :
    (ofList entries).entries = entries := by
  rw [ofList, entries_foldl_insert]
  · rfl
  · exact h

theorem ext_entries {t u : Table α} (h : t.entries = u.entries) : t = u := by
  cases t
  cases u
  cases h
  rfl

/-- Whether every key has related values in two tables, or none in both. -/
def Agree (R : α → β → Prop) (t : Table α) (u : Table β) : Prop :=
  ∀ key, Option.Rel R (t.find? key) (u.find? key)

namespace Agree

variable {R : α → β → Prop} {t : Table α} {u : Table β}

theorem find?_cases (h : t.Agree R u) (key : String) :
    (t.find? key = none ∧ u.find? key = none) ∨
      ∃ a b, t.find? key = some a ∧ u.find? key = some b ∧ R a b := by
  have hk := h key
  generalize t.find? key = x, u.find? key = y at hk ⊢
  cases hk with
  | none => exact .inl ⟨rfl, rfl⟩
  | some hr => exact .inr ⟨_, _, rfl, rfl, hr⟩

theorem find?_eq {t u : Table α} (h : t.Agree Eq u) (key : String) : t.find? key = u.find? key := by
  rcases h.find?_cases key with ⟨ht, hu⟩ | ⟨a, _, ht, hu, rfl⟩
  · rw [ht, hu]
  · rw [ht, hu]

theorem mem_iff (h : t.Agree R u) {key : String} : key ∈ t ↔ key ∈ u := by
  rw [mem_iff_isSome, mem_iff_isSome]
  rcases h.find?_cases key with ⟨ht, hu⟩ | ⟨a, b, ht, hu, -⟩
  · rw [ht, hu]
    rfl
  · rw [ht, hu]
    rfl

theorem any_eq (h : t.Agree R u) {p : α → Bool} {q : β → Bool} (hpq : ∀ a b, R a b → p a = q b)
    (key : String) : (t.find? key).any p = (u.find? key).any q := by
  rcases h.find?_cases key with ⟨ht, hu⟩ | ⟨a, b, ht, hu, hr⟩
  · rw [ht, hu, Option.any_none, Option.any_none]
  · rw [ht, hu, Option.any_some, Option.any_some, hpq a b hr]

theorem bind_eq (h : t.Agree R u) {γ : Type w} {f : α → Option γ} {g : β → Option γ}
    (hfg : ∀ a b, R a b → f a = g b) (key : String) :
    (t.find? key).bind f = (u.find? key).bind g := by
  rcases h.find?_cases key with ⟨ht, hu⟩ | ⟨a, b, ht, hu, hr⟩
  · rw [ht, hu, Option.bind_none, Option.bind_none]
  · rw [ht, hu, Option.bind_some, Option.bind_some, hfg a b hr]

theorem keys_perm (h : t.Agree R u) : t.keys.Perm u.keys := by
  apply (List.perm_ext_iff_of_nodup t.nodup_keys u.nodup_keys).mpr
  intro key
  exact h.mem_iff

theorem entries_perm {t u : Table α} (h : t.Agree Eq u) : t.entries.Perm u.entries := by
  apply (List.perm_ext_iff_of_nodup t.nodup.of_map u.nodup.of_map).mpr
  intro entry
  obtain ⟨key, value⟩ := entry
  rw [← find?_eq_some_iff, ← find?_eq_some_iff, h.find?_eq]

end Agree

theorem agree_of_perm {t u : Table α} (h : t.entries.Perm u.entries) : t.Agree Eq u := by
  intro key
  have hfind : t.find? key = u.find? key := by
    apply Option.ext
    intro value
    rw [find?_eq_some_iff, find?_eq_some_iff, h.mem_iff]
  rw [hfind]
  cases u.find? key with
  | none => exact .none
  | some value => exact .some rfl

end RefDoc.Table
