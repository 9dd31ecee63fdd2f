namespace RefDoc

/-- A finite map with its keys in the order of their first insertion. -/
structure Table (α : Type u) where
  entries : List (String × α)
  nodup : (entries.map Prod.fst).Nodup
  deriving DecidableEq

namespace Table

variable {α : Type u} {β : Type v}

def insertEntry (key : String) (value : α) : List (String × α) → List (String × α)
  | [] => [(key, value)]
  | (k, v) :: rest => if k = key then (key, value) :: rest else (k, v) :: insertEntry key value rest

theorem map_fst_insertEntry (key : String) (value : α) (entries : List (String × α)) :
    (insertEntry key value entries).map Prod.fst =
      if key ∈ entries.map Prod.fst then entries.map Prod.fst
      else entries.map Prod.fst ++ [key] := by
  induction entries with
  | nil => rfl
  | cons e rest ih =>
    obtain ⟨k, v⟩ := e
    rw [insertEntry]
    split
    · simp_all
    · next hk =>
      simp only [List.map_cons, ih, List.mem_cons, Ne.symm hk, false_or]
      split <;> simp_all

theorem nodup_insertEntry (key : String) (value : α) {entries : List (String × α)}
    (h : (entries.map Prod.fst).Nodup) : ((insertEntry key value entries).map Prod.fst).Nodup := by
  rw [map_fst_insertEntry]
  split
  · exact h
  · next hk =>
    refine List.nodup_append.mpr ⟨h, by simp, ?_⟩
    rintro k hk' _ (_ | ⟨_, ⟨⟩⟩) rfl
    exact hk hk'

def empty : Table α := ⟨[], List.nodup_nil⟩

/-- Writing a key again replaces its value and keeps its place. -/
def insert (t : Table α) (key : String) (value : α) : Table α :=
  ⟨insertEntry key value t.entries, nodup_insertEntry key value t.nodup⟩

/-- Of the entries with one key the first gives the place and the last the value. -/
def ofList (entries : List (String × α)) : Table α :=
  entries.foldl (fun t (key, value) => t.insert key value) empty

def toList (t : Table α) : List (String × α) := t.entries

def keys (t : Table α) : List String := t.entries.map Prod.fst

def size (t : Table α) : Nat := t.entries.length

def find? (t : Table α) (key : String) : Option α := t.entries.lookup key

instance : Membership String (Table α) := ⟨fun t key => key ∈ t.keys⟩

instance (key : String) (t : Table α) : Decidable (key ∈ t) :=
  inferInstanceAs (Decidable (key ∈ t.keys))

def map (f : α → β) (t : Table α) : Table β :=
  ⟨t.entries.map fun (key, value) => (key, f value), by
    simpa [List.map_map, Function.comp_def] using t.nodup⟩

def erase (t : Table α) (key : String) : Table α :=
  ⟨t.entries.filter (·.1 != key), t.nodup.sublist ((List.filter_sublist).map _)⟩

end Table

end RefDoc
