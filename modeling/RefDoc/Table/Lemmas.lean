import RefDoc.Table.Basic

namespace RefDoc.Table

variable {α : Type u} {β : Type v}

theorem lookup_cons_eq_ite (key k : String) (value : α) (rest : List (String × α)) :
    List.lookup key ((k, value) :: rest) = if key = k then some value else rest.lookup key := by
  by_cases h : key = k
  · simp [h]
  · have h' : (key == k) = false := by simpa using h
    simp [List.lookup_cons, h, h']

theorem mem_iff_mem_keys {t : Table α} {key : String} : key ∈ t ↔ key ∈ t.keys := Iff.rfl

theorem lookup_insertEntry (key key' : String) (value : α) (entries : List (String × α)) :
    (insertEntry key value entries).lookup key' =
      if key' = key then some value else entries.lookup key' := by
  induction entries with
  | nil => simp [insertEntry, lookup_cons_eq_ite]
  | cons e rest ih =>
    obtain ⟨k, v⟩ := e
    rw [insertEntry]
    split
    · next hk =>
      subst hk
      simp only [lookup_cons_eq_ite]
      split <;> rfl
    · next hk =>
      simp only [lookup_cons_eq_ite, ih]
      split
      · next h => simp [h, hk]
      · rfl

@[simp] theorem find?_empty (key : String) : (empty : Table α).find? key = none := rfl

theorem find?_insert (t : Table α) (key key' : String) (value : α) :
    (t.insert key value).find? key' = if key' = key then some value else t.find? key' :=
  lookup_insertEntry key key' value t.entries

theorem keys_insert (t : Table α) (key : String) (value : α) :
    (t.insert key value).keys = if key ∈ t then t.keys else t.keys ++ [key] :=
  map_fst_insertEntry key value t.entries

theorem nodup_keys (t : Table α) : t.keys.Nodup := t.nodup

theorem find?_eq_some_iff {t : Table α} {key : String} {value : α} :
    t.find? key = some value ↔ (key, value) ∈ t.entries := by
  obtain ⟨entries, nodup⟩ := t
  simp only [find?]
  induction entries with
  | nil => simp
  | cons e rest ih =>
    obtain ⟨k, v⟩ := e
    obtain ⟨hk, hrest⟩ := List.nodup_cons.mp nodup
    rw [lookup_cons_eq_ite]
    split
    · next h =>
      subst h
      have hno : (key, value) ∉ rest := fun hm => hk (List.mem_map.mpr ⟨_, hm, rfl⟩)
      simp [hno, eq_comm]
    · next h => simp [h, ih hrest]

theorem mem_iff_isSome {t : Table α} {key : String} : key ∈ t ↔ (t.find? key).isSome = true := by
  simp [Option.isSome_iff_exists, find?_eq_some_iff, mem_iff_mem_keys, keys]

theorem mem_iff_exists {t : Table α} {key : String} :
    key ∈ t ↔ ∃ value, t.find? key = some value := by
  rw [mem_iff_isSome, Option.isSome_iff_exists]

theorem mem_of_find? {t : Table α} {key : String} {value : α} (h : t.find? key = some value) :
    key ∈ t :=
  mem_iff_exists.mpr ⟨value, h⟩

theorem find?_eq_none_iff {t : Table α} {key : String} : t.find? key = none ↔ key ∉ t := by
  simp [mem_iff_isSome]

@[simp] theorem keys_map (t : Table α) (f : α → β) : (t.map f).keys = t.keys := by
  simp [keys, map, List.map_map, Function.comp_def]

@[simp] theorem find?_map (t : Table α) (f : α → β) (key : String) :
    (t.map f).find? key = (t.find? key).map f := by
  obtain ⟨entries, nodup⟩ := t
  simp only [find?, map]
  clear nodup
  induction entries with
  | nil => rfl
  | cons e rest ih =>
    obtain ⟨k, v⟩ := e
    simp only [List.map_cons, lookup_cons_eq_ite, ih]
    split <;> rfl

theorem mem_insertEntry {key : String} {value : α} {entry : String × α}
    {entries : List (String × α)} (h : entry ∈ insertEntry key value entries) :
    entry = (key, value) ∨ entry ∈ entries := by
  induction entries with
  | nil => exact .inl (List.mem_singleton.mp h)
  | cons e rest ih =>
    rw [insertEntry] at h
    split at h
    · exact (List.mem_cons.mp h).imp_right (List.mem_cons_of_mem _)
    · obtain rfl | h := List.mem_cons.mp h
      · exact .inr List.mem_cons_self
      · exact (ih h).imp_right (List.mem_cons_of_mem _)

theorem map_insertEntry (f : α → β) (key : String) (value : α) (entries : List (String × α)) :
    (insertEntry key value entries).map (fun (k, v) => (k, f v)) =
      insertEntry key (f value) (entries.map fun (k, v) => (k, f v)) := by
  induction entries with
  | nil => rfl
  | cons e rest ih =>
    rw [insertEntry, List.map_cons, insertEntry]
    split
    · rfl
    · rw [List.map_cons, ih]

theorem map_insert (t : Table α) (f : α → β) (key : String) (value : α) :
    (t.insert key value).map f = (t.map f).insert key (f value) := by
  simp only [insert, map, map_insertEntry]

end RefDoc.Table
