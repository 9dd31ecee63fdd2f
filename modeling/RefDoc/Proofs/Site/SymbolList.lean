import RefDoc.Proofs.Site.Listing
import RefDoc.Proofs.Text.Order

namespace RefDoc.Site

variable {site : Site} {name library text : String} {s : Symbol} {names : List String}

def IsListOf (site : Site) (library : String) (names : List String) (text : String) : Prop :=
  ∃ links, List.Forall₂ (fun name link => site.resolver.linkTo name name "." true = .ok link)
      names links ∧
    text = String.intercalate "\n"
      (("# All symbols in " ++ library) :: "" :: links.map fun link => "*  " ++ link)

/-- Whether a name is that of an indexed module whose parent is an indexed class. -/
def IsNestedModule (site : Site) (name : String) : Prop :=
  ∃ s, site.catalog.symbols.find? name = some s ∧ s.kind = .module ∧
    site.catalog.isClassMember name = true

/-- The list differs from the pages in the modules inside a class only. -/
theorem isListed_iff : site.isListed name s = true ↔ site.catalog.ownsPage name s = true ∨
    (s.kind = .module ∧ site.catalog.isClassMember name = true) := by
  rw [isListed, Catalog.ownsPage]
  cases site.catalog.isClassMember name <;> cases s.kind <;> decide

theorem mem_listedNames_iff :
    name ∈ site.listedNames ↔ site.hasPage name = true ∨ site.IsNestedModule name := by
  have hlisted : name ∈ site.listedNames ↔
      ∃ s, site.catalog.symbols.find? name = some s ∧ site.isListed name s = true := by
    rw [listedNames, List.mem_filter, ← Table.mem_iff_mem_keys, Option.any_eq_true,
      and_iff_right_iff_imp]
    rintro ⟨s, hs, -⟩
    exact Table.mem_of_find? hs
  rw [hlisted, hasPage, Catalog.hasPage, Option.any_eq_true, IsNestedModule, ← exists_or]
  apply exists_congr
  intro s
  rw [isListed_iff, and_or_left]

theorem isListOf_of_symbolList (h : site.symbolList library = .ok text) :
    ∃ names, site.IsListOf library names text ∧ Text.Ascending names ∧
      names.Perm site.listedNames := by
  obtain ⟨links, hl, rfl⟩ := symbolList_eq_ok_iff.mp h
  rw [listedLinks_eq] at hl
  have hfst := map_fst_of_mapM_listedLink hl
  have hperm := Text.sortOn_perm Prod.fst links
  refine ⟨(Text.sortOn Prod.fst links).map Prod.fst, ⟨(Text.sortOn Prod.fst links).map Prod.snd, ?_,
    ?_⟩, ?_, ?_⟩
  · rw [List.forall₂_map_left_iff, List.forall₂_map_right_iff, List.forall₂_same]
    intro entry hm
    obtain ⟨name, -, he⟩ :=
      exists_left_of_forall₂ (mapM_eq_ok_iff.mp hl) (hperm.mem_iff.mp hm)
    rw [listedLink, bind_eq_ok_iff] at he
    obtain ⟨link, hlink, he⟩ := he
    cases he
    exact hlink
  · rw [List.map_map]
    rfl
  · apply Text.ascending_sortOn
    rw [hfst]
    exact site.catalog.symbols.nodup_keys.filter _
  · rw [← hfst]
    exact hperm.map Prod.fst

/-- The list shows each name with a page and each module inside a class, once and in order. -/
theorem symbolList_shows (site : Site) {library text : String}
    (h : site.symbolList library = .ok text) :
    ∃ names, site.IsListOf library names text ∧ Text.Ascending names ∧
      (∀ name, name ∈ names ↔ site.hasPage name = true ∨ site.IsNestedModule name) ∧
      (∀ name ∈ site.pageNames none, name ∈ names) ∧
      ∀ name ∈ names, site.hasPage name = false → site.IsNestedModule name := by
  obtain ⟨names, hlist, hascending, hperm⟩ := isListOf_of_symbolList h
  have hmem (name : String) :
      name ∈ names ↔ site.hasPage name = true ∨ site.IsNestedModule name := by
    rw [hperm.mem_iff, mem_listedNames_iff]
  refine ⟨names, hlist, hascending, hmem, fun name hm => ?_, fun name hm hpage => ?_⟩
  · exact (hmem name).mpr (.inl (mem_pageNames_none_iff.mp hm).2)
  · rcases (hmem name).mp hm with hp | hnested
    · rw [hpage] at hp
      cases hp
    · exact hnested

def moduleInClass : Site where
  catalog :=
    let symbol (kind : Kind) : Symbol := ⟨kind, none, none, none⟩
    { symbols := .ofList [("m", symbol .module), ("m.C", symbol .cls), ("m.C.M", symbol .module)]
      aliases := .empty
      tree := .empty
      documents := .empty
      guides := .empty
      moduleNames := [] }
  options := {}
  direct := nofun

def moduleInClassList : String := String.intercalate "\n"
  ["# All symbols in lib", "", "*  [`m`](./m.md)", "*  [`m.C`](./m/C.md)", "*  [`m.C.M`](./m/C.md#M)"]

theorem symbolList_moduleInClass : moduleInClass.symbolList "lib" = .ok moduleInClassList := by
  have hlinks : moduleInClass.listedLinks = .ok
      [("m", "[`m`](./m.md)"), ("m.C", "[`m.C`](./m/C.md)"), ("m.C.M", "[`m.C.M`](./m/C.md#M)")] := by
    decide +kernel
  refine symbolList_eq_ok_iff.mpr ⟨_, hlinks, ?_⟩
  rw [show Text.sortOn Prod.fst _ = _ from List.mergeSort_of_pairwise (by decide +kernel)]
  rfl

theorem symbolList_shows_moduleInClass :
    moduleInClass.symbolList "lib" = .ok moduleInClassList ∧
      ∃ names, moduleInClass.IsListOf "lib" names moduleInClassList ∧ Text.Ascending names ∧
        "m.C" ∈ names ∧ "m.C.M" ∈ names := by
  obtain ⟨names, hlist, hascending, hmem, -⟩ :=
    symbolList_shows moduleInClass symbolList_moduleInClass
  refine ⟨symbolList_moduleInClass, names, hlist, hascending, ?_, ?_⟩
  · exact (hmem "m.C").mpr (.inl (by decide +kernel))
  · refine (hmem "m.C.M").mpr (.inr ⟨⟨.module, none, none, none⟩, ?_, rfl, ?_⟩)
    · decide +kernel
    · decide +kernel

/-- A module inside a class has no page, and the list shows it. -/
theorem symbolList_shows_more_than_pages :
    ∃ text, moduleInClass.symbolList "lib" = .ok text ∧
      ¬ ∃ names, moduleInClass.IsListOf "lib" names text ∧ Text.Ascending names ∧
        ∀ name, name ∈ names ↔ name ∈ moduleInClass.catalog.symbols ∧
          moduleInClass.hasPage name = true := by
  refine ⟨_, symbolList_moduleInClass, ?_⟩
  rintro ⟨names, ⟨links, hlinks, htext⟩, hascending, hmem⟩
  have hkept : moduleInClass.catalog.symbols.keys.filter moduleInClass.hasPage = ["m", "m.C"] := by
    decide +kernel
  have hpages (name : String) : name ∈ names ↔ name ∈ ["m", "m.C"] := by
    rw [hmem, ← hkept, List.mem_filter]
    exact .rfl
  have hnames : names = ["m", "m.C"] := by
    apply List.Perm.eq_of_pairwise _ hascending (by decide +kernel)
    · exact (List.perm_ext_iff_of_nodup (hascending.imp And.right) (by decide)).mpr hpages
    · intro s t _ _ hst hts
      exact Text.le_antisymm hst.1 hts.1
  subst hnames
  obtain ⟨first, rest, hfirst, hrest, rfl⟩ := List.forall₂_cons_left_iff.mp hlinks
  obtain ⟨second, none, hsecond, hnone, rfl⟩ := List.forall₂_cons_left_iff.mp hrest
  cases hnone
  have hm : moduleInClass.resolver.linkTo "m" "m" "." true = .ok "[`m`](./m.md)" := by
    decide +kernel
  have hc : moduleInClass.resolver.linkTo "m.C" "m.C" "." true = .ok "[`m.C`](./m/C.md)" := by
    decide +kernel
  cases hm.symm.trans hfirst
  cases hc.symm.trans hsecond
  exact absurd htext (by decide +kernel)

end RefDoc.Site
