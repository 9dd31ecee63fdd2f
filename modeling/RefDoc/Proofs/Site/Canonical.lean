import RefDoc.Proofs.Page.Members
import RefDoc.Proofs.Site.Aliases
import RefDoc.Proofs.Site.Pages

namespace RefDoc

theorem Aliases.not_direct_iff {σ : Type u} {symbols : Table σ} {aliases : Table String} :
    ¬ Direct symbols aliases ↔ ∃ name target, aliases.find? name = some target ∧
      (target ∉ symbols ∨ target ∈ aliases) := by
  simp only [Direct, not_forall, exists_prop]
  apply exists_congr
  intro name
  apply exists_congr
  intro target
  rw [not_and_or, not_not]

namespace Site

variable {site : Site} {name : String} {s : Symbol}

theorem exists_ofCatalog_error_iff {catalog : Catalog} {options : Options} :
    (∃ e, ofCatalog catalog options = .error e) ↔
      ¬ Aliases.Direct catalog.symbols catalog.aliases := by
  have hok : (∃ site, ofCatalog catalog options = .ok site) ↔
      Aliases.Direct catalog.symbols catalog.aliases := exists_ofCatalog_iff
  rw [← hok]
  cases ofCatalog catalog options with
  | ok site => simp
  | error e => simp

theorem canonical_canonical (site : Site) (name : String) :
    site.resolver.canonical (site.resolver.canonical name) = site.resolver.canonical name :=
  canonical_eq_self (canonical_not_mem_aliases name)

theorem canonical_mem_symbols (h : name ∈ site.catalog.aliases) :
    site.resolver.canonical name ∈ site.catalog.symbols := by
  obtain ⟨target, ht⟩ := Table.mem_iff_exists.mp h
  rw [canonical_of_find? ht]
  exact (site.direct name target ht).1

theorem canonical_mem_of_mem (h : name ∈ site.catalog.symbols) :
    site.resolver.canonical name ∈ site.catalog.symbols := by
  by_cases ha : name ∈ site.catalog.aliases
  · exact canonical_mem_symbols ha
  · rwa [canonical_eq_self ha]

theorem url?_canonical (site : Site) (name root : String) :
    site.resolver.url? (site.resolver.canonical name) root = site.resolver.url? name root := by
  rw [Resolver.url?, Resolver.url?, canonical_canonical]

/-- Errors name what was asked for, and addresses do not. -/
theorem toOption_url (name root : String) :
    (site.resolver.url name root).toOption = site.resolver.url? name root := by
  rw [Resolver.url]
  cases site.resolver.url? name root <;> rfl

theorem body_given_eq (site : Site) (name : String) (hk : s.kind ≠ .other)
    (root given given' : String) :
    site.body name root s given = site.body name root s given' := by
  rw [body, body]
  cases hs : s.kind with
  | other => exact absurd hs hk
  | function => rfl
  | property => rfl
  | cls => rfl
  | module => rfl

theorem page_canonical (hk : s.kind ≠ .other) (name : String) :
    site.page (site.resolver.canonical name) s = site.page name s := by
  rw [page, page, canonical_canonical]
  have hbody := body_given_eq site (site.resolver.canonical name) hk
    (Name.rootPath (site.resolver.canonical name)) (site.resolver.canonical name) name
  simp only [hbody]

/-- No canonical name is among its own aliases, so none of the aliases is left out. -/
theorem otherNames_canonical (site : Site) (name : String) :
    site.otherNames (site.resolver.canonical name) = Text.sort
      ((site.catalog.aliases.entries.filter (·.2 == site.resolver.canonical name)).map Prod.fst) := by
  rw [otherNames, aliasesByName, Aliases.find?_reverse]
  apply List.filter_eq_self.mpr
  intro other ho
  obtain ⟨entry, hm, hentry⟩ := List.mem_map.mp (Text.mem_sort.mp ho)
  have halias : other ∈ site.catalog.aliases :=
    List.mem_map.mpr ⟨entry, (List.mem_filter.mp hm).1, hentry⟩
  rw [bne_iff_ne]
  rintro rfl
  exact canonical_not_mem_aliases name halias

theorem mem_otherNames_iff {other : String} :
    other ∈ site.otherNames (site.resolver.canonical name) ↔
      site.catalog.aliases.find? other = some (site.resolver.canonical name) := by
  rw [otherNames_canonical, Text.mem_sort, Table.find?_eq_some_iff]
  simp

theorem ascending_otherNames (site : Site) (name : String) :
    Text.Ascending (site.otherNames (site.resolver.canonical name)) := by
  rw [otherNames_canonical]
  apply Text.ascending_sort
  exact site.catalog.aliases.nodup.sublist (List.filter_sublist.map Prod.fst)

/-- What a name has in common with the canonical name that it stands for. -/
structure Interchangeable (site : Site) (name : String) : Prop where
  canonical : site.resolver.canonical (site.resolver.canonical name) = site.resolver.canonical name
  indexed : name ∈ site.catalog.aliases →
    site.resolver.canonical name ∈ site.catalog.symbols ∧
      site.resolver.canonical name ∉ site.catalog.aliases
  knows : site.resolver.knows name = site.resolver.knows (site.resolver.canonical name)
  symbol? : site.resolver.symbol? name = site.resolver.symbol? (site.resolver.canonical name)
  url : ∀ root, (site.resolver.url name root).toOption =
    (site.resolver.url (site.resolver.canonical name) root).toOption
  page : ∀ s : Symbol, s.kind ≠ .other →
    site.page name s = site.page (site.resolver.canonical name) s
  fullName : ∀ s page, (site.page name s).result = .ok page →
    page.fullName = site.resolver.canonical name
  aliases : ∀ s page, (site.page name s).result = .ok page → Text.Ascending page.aliases ∧
    site.resolver.canonical name ∉ page.aliases ∧ ∀ other, other ∈ page.aliases ↔
      site.catalog.aliases.find? other = some (site.resolver.canonical name)

theorem interchangeable (site : Site) (name : String) : site.Interchangeable name where
  canonical := canonical_canonical site name
  indexed h := ⟨canonical_mem_symbols h, canonical_not_mem_aliases name⟩
  knows := by
    rw [Resolver.knows, Resolver.knows, canonical_canonical]
  symbol? := by
    rw [Resolver.symbol?, Resolver.symbol?, canonical_canonical]
  url root := by
    rw [toOption_url, toOption_url, url?_canonical]
  page s hk := (page_canonical hk name).symm
  fullName s page h := by
    obtain ⟨doc, body, -, -, rfl⟩ := page_eq_ok_iff.mp h
    rfl
  aliases s page h := by
    obtain ⟨doc, body, -, -, rfl⟩ := page_eq_ok_iff.mp h
    refine ⟨ascending_otherNames site name, fun hm => ?_, fun other => mem_otherNames_iff⟩
    have hself := mem_otherNames_iff.mp hm
    exact canonical_not_mem_aliases name (Table.mem_of_find? hself)

/-- On every site aliases are direct, and each name is interchangeable with its canonical name. -/
theorem ofCatalog_interchangeable (catalog : Catalog) (options : Options) :
    ((∃ e, ofCatalog catalog options = .error e) ↔
      ∃ name target, catalog.aliases.find? name = some target ∧
        (target ∉ catalog.symbols ∨ target ∈ catalog.aliases)) ∧
    (∀ e, ofCatalog catalog options = .error e →
      catalog.aliases.find? e.name = some e.target ∧
        Aliases.fault? catalog.symbols catalog.aliases e.target = some e.fault) ∧
    ∀ site, ofCatalog catalog options = .ok site →
      site.catalog = catalog ∧ ∀ name, site.Interchangeable name := by
  refine ⟨?_, fun e h => find?_of_ofCatalog_error h, fun site h => ?_⟩
  · rw [exists_ofCatalog_error_iff, Aliases.not_direct_iff]
  · exact ⟨(ofCatalog_eq_ok_iff.mp h).1, interchangeable site⟩

def renamedFunction (aliases : List (String × String)) : Catalog where
  symbols := .ofList [("m", ⟨.module, none, none, none⟩), ("m.f", ⟨.function, none, none, none⟩),
    ("m.g", ⟨.function, some "Stands for another.", none, none⟩)]
  aliases := .ofList aliases
  tree := .empty
  documents := .empty
  guides := .empty
  moduleNames := []

theorem ofCatalog_interchangeable_renamed :
    (∃ site, ofCatalog (renamedFunction [("m.h", "m.f"), ("m.g", "m.f")]) {} = .ok site ∧
      site.resolver.canonical "m.g" = "m.f" ∧ site.resolver.canonical "m.g" ∉ site.catalog.aliases ∧
      (site.resolver.url "m.g" ".").toOption = (site.resolver.url "m.f" ".").toOption ∧
      ∀ s : Symbol, s.kind ≠ .other → site.page "m.g" s = site.page "m.f" s) ∧
    ∃ e, ofCatalog (renamedFunction [("m.h", "m.g"), ("m.g", "m.f")]) {} = .error e ∧
      (renamedFunction [("m.h", "m.g"), ("m.g", "m.f")]).aliases.find? e.name = some e.target := by
  constructor
  · obtain ⟨-, -, hsite⟩ :=
      ofCatalog_interchangeable (renamedFunction [("m.h", "m.f"), ("m.g", "m.f")]) {}
    have hdirect : Aliases.Direct (renamedFunction [("m.h", "m.f"), ("m.g", "m.f")]).symbols
        (renamedFunction [("m.h", "m.f"), ("m.g", "m.f")]).aliases :=
      Aliases.misplaced?_eq_none_iff.mp (by decide +kernel)
    obtain ⟨site, hs⟩ : ∃ site, ofCatalog (renamedFunction [("m.h", "m.f"), ("m.g", "m.f")]) {} =
        .ok site := exists_ofCatalog_iff.mpr hdirect
    obtain ⟨hcatalog, hsame⟩ := hsite site hs
    have hc : site.resolver.canonical "m.g" = "m.f" := by
      rw [resolver, hcatalog]
      decide +kernel
    have halias : "m.g" ∈ site.catalog.aliases := by
      rw [hcatalog]
      decide +kernel
    have h := hsame "m.g"
    exact ⟨site, hs, hc, (h.indexed halias).2, hc ▸ h.url ".", fun s hk => hc ▸ h.page s hk⟩
  · obtain ⟨hiff, herror, -⟩ :=
      ofCatalog_interchangeable (renamedFunction [("m.h", "m.g"), ("m.g", "m.f")]) {}
    obtain ⟨e, he⟩ := hiff.mpr ⟨"m.h", "m.g", by decide +kernel, .inr (by decide +kernel)⟩
    exact ⟨e, he, (herror e he).1⟩

end Site

end RefDoc
