import RefDoc.Proofs.Table
import RefDoc.Proofs.Text.Order
import RefDoc.Site.Basic

namespace RefDoc.Aliases

def addTo (groups : Table (List String)) (entry : String × String) : Table (List String) :=
  groups.insert entry.2 ((groups.find? entry.2).getD [] ++ [entry.1])

theorem reverse_eq (aliases : Table String) :
    reverse aliases = (aliases.entries.foldl addTo .empty).map Text.sort := rfl

theorem find?_foldl_addTo (entries : List (String × String)) (groups : Table (List String))
    (target : String) :
    ((entries.foldl addTo groups).find? target).getD [] =
      (groups.find? target).getD [] ++ (entries.filter (·.2 == target)).map Prod.fst := by
  induction entries generalizing groups with
  | nil => exact (List.append_nil _).symm
  | cons entry rest ih =>
    rw [List.foldl_cons, ih, addTo, Table.find?_insert]
    by_cases h : target = entry.2
    · rw [if_pos h, List.filter_cons_of_pos (by simpa using h.symm), ← h]
      simp
    · rw [if_neg h, List.filter_cons_of_neg (by simpa using Ne.symm h)]

theorem find?_reverse (aliases : Table String) (target : String) :
    ((reverse aliases).find? target).getD [] =
      Text.sort ((aliases.entries.filter (·.2 == target)).map Prod.fst) := by
  have hgroups := find?_foldl_addTo aliases.entries .empty target
  rw [Table.find?_empty, Option.getD_none, List.nil_append] at hgroups
  have hsort (group? : Option (List String)) :
      (group?.map Text.sort).getD [] = Text.sort (group?.getD []) := by
    cases group? with
    | none => exact List.mergeSort_nil.symm
    | some group => rfl
  rw [← hgroups, reverse_eq, Table.find?_map, hsort]

variable {aliases aliases' : Table String}

theorem find?_reverse_eq (h : aliases.Agree Eq aliases') (target : String) :
    ((reverse aliases).find? target).getD [] = ((reverse aliases').find? target).getD [] := by
  rw [find?_reverse, find?_reverse]
  apply Text.sort_eq_of_perm
  exact (h.entries_perm.filter _).map _

theorem direct_iff {σ : Type u} {R : σ → σ → Prop} {symbols symbols' : Table σ}
    (hs : symbols.Agree R symbols') (ha : aliases.Agree Eq aliases') :
    Direct symbols aliases ↔ Direct symbols' aliases' := by
  simp only [Direct, ha.find?_eq, ha.mem_iff, hs.mem_iff]

end RefDoc.Aliases

namespace RefDoc.Site

variable {site : Site} {catalog : Catalog} {options : Options}

theorem ofCatalog_eq_ok_iff :
    ofCatalog catalog options = .ok site ↔ site.catalog = catalog ∧ site.options = options := by
  rw [ofCatalog]
  split
  · next misplaced hm =>
    constructor
    · intro h
      cases h
    · rintro ⟨rfl, -⟩
      rw [Aliases.misplaced?_eq_none_iff.mpr site.direct] at hm
      cases hm
  · next hm =>
    constructor
    · intro h
      cases h
      exact ⟨rfl, rfl⟩
    · rintro ⟨rfl, rfl⟩
      rfl

theorem exists_ofCatalog_iff :
    (∃ site, ofCatalog catalog options = .ok site) ↔
      Aliases.Direct catalog.symbols catalog.aliases := by
  constructor
  · rintro ⟨site, h⟩
    obtain ⟨rfl, -⟩ := ofCatalog_eq_ok_iff.mp h
    exact site.direct
  · intro h
    exact ⟨⟨catalog, options, h⟩, ofCatalog_eq_ok_iff.mpr ⟨rfl, rfl⟩⟩

/-- The error of a catalog without a site names an alias that is at fault, and the fault. -/
theorem find?_of_ofCatalog_error {e : Aliases.Misplaced}
    (h : ofCatalog catalog options = .error e) :
    catalog.aliases.find? e.name = some e.target ∧
      Aliases.fault? catalog.symbols catalog.aliases e.target = some e.fault := by
  have hm : Aliases.misplaced? catalog.symbols catalog.aliases = some e := by
    rw [ofCatalog] at h
    split at h
    · next hm =>
      cases h
      exact hm
    · cases h
  obtain ⟨⟨name, target⟩, hentry, hfault⟩ := List.exists_of_findSome?_eq_some hm
  obtain ⟨fault, hf, rfl⟩ := Option.map_eq_some_iff.mp hfault
  exact ⟨Table.find?_eq_some_iff.mpr hentry, hf⟩

end RefDoc.Site
