import Mathlib.Data.List.Perm.Basic
import RefDoc.Proofs.Site.Aliases

namespace RefDoc.Aliases

/-- The aliases that point at a target, in ascending order. -/
def group (aliases : Table String) (target : String) : List String :=
  Text.sort ((aliases.entries.filter (·.2 == target)).map Prod.fst)

variable {aliases aliases' : Table String} {name target : String}

theorem mem_group_iff : name ∈ group aliases target ↔ aliases.find? name = some target := by
  rw [group, Text.mem_sort, Table.find?_eq_some_iff]
  simp

theorem ascending_group (aliases : Table String) (target : String) :
    Text.Ascending (group aliases target) := by
  apply Text.ascending_sort
  exact aliases.nodup.sublist (List.filter_sublist.map Prod.fst)

theorem group_eq_of_perm (h : aliases.entries.Perm aliases'.entries) (target : String) :
    group aliases target = group aliases' target := by
  apply Text.sort_eq_of_perm
  exact (h.filter _).map _

theorem group_ne_nil (h : target ∈ aliases.entries.map Prod.snd) : group aliases target ≠ [] := by
  obtain ⟨⟨name, _⟩, hm, rfl⟩ := List.mem_map.mp h
  exact List.ne_nil_of_mem (mem_group_iff.mpr (Table.find?_eq_some_iff.mpr hm))

/-- A target gets its place when the first alias points at it. -/
theorem keys_foldl_addTo (entries : List (String × String)) (groups : Table (List String)) :
    (entries.foldl addTo groups).keys = (groups.keys ++ entries.map Prod.snd).eraseDups := by
  induction entries generalizing groups with
  | nil =>
    rw [List.map_nil, List.append_nil, Text.eraseDups_eq_self groups.nodup_keys, List.foldl_nil]
  | cons entry rest ih =>
    rw [List.foldl_cons, ih, addTo, Table.keys_insert, List.map_cons]
    split
    · next hm =>
      have hk : entry.2 ∈ groups.keys := Table.mem_iff_mem_keys.mp hm
      rw [List.eraseDups_append, List.eraseDups_append, List.cons_removeAll]
      simp [hk]
    · rw [List.append_assoc, List.singleton_append]

theorem keys_reverse (aliases : Table String) :
    (reverse aliases).keys = (aliases.entries.map Prod.snd).eraseDups := by
  rw [reverse_eq, Table.keys_map, keys_foldl_addTo]
  rfl

theorem find?_reverse_eq_some_iff {names : List String} :
    (reverse aliases).find? target = some names ↔
      target ∈ aliases.entries.map Prod.snd ∧ names = group aliases target := by
  have hkey : target ∈ aliases.entries.map Prod.snd ↔ target ∈ reverse aliases := by
    rw [Table.mem_iff_mem_keys, keys_reverse, List.mem_eraseDups]
  have hgroup := find?_reverse aliases target
  rw [hkey, Table.mem_iff_isSome, group, ← hgroup]
  cases (reverse aliases).find? target with
  | none => simp
  | some found => simp [eq_comm]

theorem entries_reverse (aliases : Table String) :
    (reverse aliases).entries =
      (aliases.entries.map Prod.snd).eraseDups.map fun target =>
        (target, group aliases target) := by
  rw [← keys_reverse, Table.keys, List.map_map]
  refine (List.map_id _).symm.trans (List.map_congr_left ?_)
  intro entry hm
  have hf := Table.find?_eq_some_iff.mpr hm
  exact Prod.ext rfl (find?_reverse_eq_some_iff.mp hf).2

theorem pairwise_disjoint_group (aliases : Table String) :
    (aliases.entries.map Prod.snd).eraseDups.Pairwise fun target target' =>
      (group aliases target).Disjoint (group aliases target') := by
  apply (Text.nodup_eraseDups _).imp
  intro target target' hne name hm hm'
  apply hne
  exact Option.some.inj ((mem_group_iff.mp hm).symm.trans (mem_group_iff.mp hm'))

theorem groups_perm (aliases : Table String) :
    ((reverse aliases).entries.flatMap Prod.snd).Perm aliases.keys := by
  rw [entries_reverse, List.flatMap_map]
  have hgroups : ((aliases.entries.map Prod.snd).eraseDups.flatMap (group aliases)).Nodup := by
    apply List.nodup_flatMap.mpr
    exact ⟨fun target _ => (ascending_group aliases target).nodup, pairwise_disjoint_group aliases⟩
  apply (List.perm_ext_iff_of_nodup hgroups aliases.nodup_keys).mpr
  intro name
  rw [← Table.mem_iff_mem_keys, Table.mem_iff_exists, List.mem_flatMap]
  constructor
  · intro h
    obtain ⟨target, -, hm⟩ := h
    exact ⟨target, mem_group_iff.mp hm⟩
  · intro h
    obtain ⟨target, hf⟩ := h
    have hentry := Table.find?_eq_some_iff.mp hf
    exact ⟨target, List.mem_eraseDups.mpr (List.mem_map.mpr ⟨_, hentry, rfl⟩), mem_group_iff.mpr hf⟩

theorem reverse_perm (h : aliases.entries.Perm aliases'.entries) :
    (reverse aliases).entries.Perm (reverse aliases').entries := by
  have hgroup : (fun target => (target, group aliases target)) =
      fun target => (target, group aliases' target) := by
    funext target
    rw [group_eq_of_perm h]
  rw [entries_reverse, entries_reverse, hgroup]
  exact (Text.eraseDups_perm (h.map Prod.snd)).map _

/-- Whether groups of names are a table of aliases read backwards. -/
structure Inverts (groups : Table (List String)) (aliases : Table String) : Prop where
  mem_iff : ∀ name target, (∃ names, groups.find? target = some names ∧ name ∈ names) ↔
    aliases.find? name = some target
  ne_nil : ∀ target names, groups.find? target = some names → names ≠ []
  ascending : ∀ target names, groups.find? target = some names → Text.Ascending names
  keys : groups.keys = (aliases.entries.map Prod.snd).eraseDups
  disjoint : groups.entries.Pairwise fun first second => first.2.Disjoint second.2
  perm : (groups.entries.flatMap Prod.snd).Perm aliases.keys

theorem inverts_reverse (aliases : Table String) : Inverts (reverse aliases) aliases where
  mem_iff name target := by
    constructor
    · intro h
      obtain ⟨names, hf, hm⟩ := h
      obtain ⟨-, rfl⟩ := find?_reverse_eq_some_iff.mp hf
      exact mem_group_iff.mp hm
    · intro hf
      have hentry := Table.find?_eq_some_iff.mp hf
      have htarget : target ∈ aliases.entries.map Prod.snd := List.mem_map.mpr ⟨_, hentry, rfl⟩
      exact ⟨_, find?_reverse_eq_some_iff.mpr ⟨htarget, rfl⟩, mem_group_iff.mpr hf⟩
  ne_nil target names h := by
    obtain ⟨htarget, rfl⟩ := find?_reverse_eq_some_iff.mp h
    exact group_ne_nil htarget
  ascending target names h := by
    obtain ⟨-, rfl⟩ := find?_reverse_eq_some_iff.mp h
    exact ascending_group aliases target
  keys := keys_reverse aliases
  disjoint := by
    rw [entries_reverse]
    exact List.pairwise_map.mpr (pairwise_disjoint_group aliases)
  perm := groups_perm aliases

/-- The groups of aliases by target are the table of aliases read backwards. -/
theorem reverse_inverts (aliases : Table String) :
    Inverts (reverse aliases) aliases ∧
      ∀ reordered : Table String, reordered.entries.Perm aliases.entries →
        (reverse reordered).entries.Perm (reverse aliases).entries :=
  ⟨inverts_reverse aliases, fun _ h => reverse_perm h⟩

theorem reverse_inverts_byTurns :
    let aliases : Table String := ⟨[("y", "m"), ("b", "n"), ("x", "m")], by decide⟩
    let reordered : Table String := ⟨[("b", "n"), ("x", "m"), ("y", "m")], by decide⟩
    reordered.entries.Perm aliases.entries ∧
      (reverse aliases).entries = [("m", ["x", "y"]), ("n", ["b"])] ∧
      (reverse reordered).entries.Perm [("m", ["x", "y"]), ("n", ["b"])] := by
  intro aliases reordered
  have hperm : reordered.entries.Perm aliases.entries := by decide
  have htargets : (aliases.entries.map Prod.snd).eraseDups = ["m", "n"] := by decide +kernel
  have hm : group aliases "m" = ["x", "y"] := (Text.sort_eq_of_perm (.swap "x" "y" [])).trans
    (List.mergeSort_of_pairwise (by decide +kernel))
  have hn : group aliases "n" = ["b"] := List.mergeSort_singleton "b"
  have hgroups : (reverse aliases).entries = [("m", ["x", "y"]), ("n", ["b"])] := by
    rw [entries_reverse, htargets, List.map_cons, hm, List.map_singleton, hn]
  exact ⟨hperm, hgroups, hgroups ▸ (reverse_inverts aliases).2 reordered hperm⟩

end RefDoc.Aliases
