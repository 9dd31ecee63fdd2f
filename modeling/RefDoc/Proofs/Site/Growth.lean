import RefDoc.Proofs.Reference.Grammar
import RefDoc.Proofs.Reference.Replace
import RefDoc.Proofs.Site.Canonical

namespace RefDoc

/-- Whether a catalog lists all of another one, with the same kinds, aliases and modules. -/
structure Catalog.Grows (small large : Catalog) : Prop where
  symbols : ∀ name s, small.symbols.find? name = some s →
    ∃ t, large.symbols.find? name = some t ∧ t.kind = s.kind
  documents : ∀ name ∈ small.documents, name ∈ large.documents
  aliases : small.aliases.Agree Eq large.aliases
  moduleNames : small.moduleNames = large.moduleNames

namespace Catalog.Grows

variable {small large : Site} {name root : String}

theorem mem_symbols (h : small.catalog.Grows large.catalog) (hm : name ∈ small.catalog.symbols) :
    name ∈ large.catalog.symbols := by
  obtain ⟨s, hs⟩ := Table.mem_iff_exists.mp hm
  obtain ⟨t, ht, -⟩ := h.symbols name s hs
  exact Table.mem_of_find? ht

theorem canonical_eq (h : small.catalog.Grows large.catalog) (name : String) :
    small.resolver.canonical name = large.resolver.canonical name :=
  congrArg (Option.getD · name) (h.aliases.find?_eq name)

/-- A name that loses its page has become a member of a class. -/
theorem exists_sentTo_of_hasPage (h : small.catalog.Grows large.catalog)
    (hp : small.hasPage (large.resolver.canonical name) = true) :
    ∃ page anchor, large.resolver.SentTo name page anchor := by
  obtain ⟨s, hs, howns⟩ := (Option.any_eq_true _ _).mp hp
  obtain ⟨t, ht, hkind⟩ := h.symbols _ s hs
  by_cases hown : large.hasPage (large.resolver.canonical name) = true
  · exact ⟨_, _, .own (Site.hasPage_iff.mp hown)⟩
  · have hmay : t.kind.mayHavePage = true := hkind ▸ (ownsPage_iff.mp howns).1
    have hmember := Site.isClassMember_of_not_hasPage ht hmay hown
    obtain ⟨parent, last, p, hsplit, hparent, -⟩ := isClassMember_iff.mp hmember
    have hm : parent ∈ large.catalog.symbols := Table.mem_of_find? hparent
    exact ⟨_, _, .parent (mt Site.hasPage_iff.mpr hown) hsplit (Site.canonical_mem_of_mem hm)⟩

theorem exists_sentTo {page anchor : String} (h : small.catalog.Grows large.catalog)
    (hs : small.resolver.SentTo name page anchor) :
    ∃ page anchor, large.resolver.SentTo name page anchor := by
  cases hs with
  | own hp =>
    apply h.exists_sentTo_of_hasPage
    rw [← h.canonical_eq]
    exact Site.hasPage_iff.mpr hp
  | @parent parent last hp hsplit hi =>
    rw [h.canonical_eq] at hsplit hi
    by_cases hown : large.resolver.HasPage (large.resolver.canonical name)
    · exact ⟨_, _, .own hown⟩
    · exact ⟨_, _, .parent hown hsplit (h.mem_symbols hi)⟩

theorem exists_url (h : small.catalog.Grows large.catalog)
    (hu : ∃ address, small.resolver.url name root = .ok address) :
    ∃ address, large.resolver.url name root = .ok address := by
  rw [Resolver.exists_url_iff] at hu ⊢
  obtain ⟨page, anchor, hs⟩ := hu
  exact h.exists_sentTo hs

theorem leads {ref : Reference} (h : small.catalog.Grows large.catalog)
    (hl : small.resolver.Leads root ref) : large.resolver.Leads root ref := by
  obtain ⟨target, text?⟩ := ref
  cases target with
  | symbol name =>
    obtain ⟨hw, hu⟩ := hl
    refine ⟨?_, h.exists_url hu⟩
    have hmodules : small.resolver.moduleNames = large.resolver.moduleNames := h.moduleNames
    rwa [Resolver.Within, hmodules] at hw
  | document name anchor => exact h.documents name hl

end Catalog.Grows

namespace Site

/-- Whatever is added to a catalog, a name keeps an address and a text its references. -/
theorem references_survive_growth (small large : Site)
    (h : small.catalog.Grows large.catalog) :
    (∀ name root address, small.resolver.url name root = .ok address →
      ∃ address', large.resolver.url name root = .ok address') ∧
    ∀ text root replaced, small.resolver.replace text root = .ok replaced →
      ∃ replaced', large.resolver.replace text root = .ok replaced' := by
  constructor
  · intro name root address hu
    exact h.exists_url ⟨address, hu⟩
  · intro text root replaced hr
    have htokens := (small.resolver.exists_replace_iff).mp ⟨replaced, hr⟩
    apply (large.resolver.exists_replace_iff).mpr
    intro body hm
    have hl := (Resolver.exists_resolveBody_iff _).mp (htokens body hm)
    exact (Resolver.exists_resolveBody_iff _).mpr (h.leads hl)

def movedClass (indexed : List (String × Symbol)) : Catalog where
  symbols := .ofList (("lib.C", ⟨.cls, none, none, none⟩) ::
    ("m.C.f", ⟨.function, none, none, none⟩) :: indexed)
  aliases := .ofList [("m.C", "lib.C")]
  tree := .empty
  documents := .empty
  guides := .empty
  moduleNames := ["m"]

theorem grows_movedClass (s : Symbol) :
    (movedClass []).Grows (movedClass [("m.C", s)]) where
  symbols name t ht := by
    have hlarge : ∀ entry ∈ (movedClass []).symbols.entries,
        (movedClass [("m.C", s)]).symbols.find? entry.1 = some entry.2 := by
      intro entry hm
      obtain rfl | hm := List.mem_cons.mp hm
      · rfl
      · cases List.mem_singleton.mp hm
        rfl
    exact ⟨t, hlarge _ (Table.find?_eq_some_iff.mp ht), rfl⟩
  documents _ hm := hm
  aliases := Table.agree_of_perm (.refl _)
  moduleNames := rfl

theorem references_survive_growth_movedClass :
    ∃ small large : Site, small.catalog = movedClass [] ∧
      large.catalog = movedClass [("m.C", ⟨.cls, none, none, none⟩)] ∧
      small.catalog.Grows large.catalog ∧
      small.resolver.url "m.C.f" ".." = .ok "../m/C/f.md" ∧
      (∃ address, large.resolver.url "m.C.f" ".." = .ok address ∧ address = "../lib/C.md#f") ∧
      small.resolver.replace "See @\x7bm.C.f$f\x7d." ".." = .ok "See [f](../m/C/f.md)." ∧
      ∃ replaced, large.resolver.replace "See @\x7bm.C.f$f\x7d." ".." = .ok replaced ∧
        replaced = "See [f](../lib/C.md#f)." := by
  let small : Site :=
    ⟨movedClass [], {}, Aliases.misplaced?_eq_none_iff.mp (by decide +kernel)⟩
  let large : Site := ⟨movedClass [("m.C", ⟨.cls, none, none, none⟩)], {},
    Aliases.misplaced?_eq_none_iff.mp (by decide +kernel)⟩
  have hgrows : small.catalog.Grows large.catalog := grows_movedClass _
  have hu : small.resolver.url "m.C.f" ".." = .ok "../m/C/f.md" := by decide +kernel
  have hu' : large.resolver.url "m.C.f" ".." = .ok "../lib/C.md#f" := by decide +kernel
  have hr : small.resolver.replace "See @\x7bm.C.f$f\x7d." ".." = .ok "See [f](../m/C/f.md)." := by
    decide +kernel
  have hr' : large.resolver.replace "See @\x7bm.C.f$f\x7d." ".." =
      .ok "See [f](../lib/C.md#f)." := by decide +kernel
  obtain ⟨hurl, hreplace⟩ := references_survive_growth small large hgrows
  obtain ⟨address, ha⟩ := hurl _ _ _ hu
  obtain ⟨replaced, hreplaced⟩ := hreplace _ _ _ hr
  refine ⟨small, large, rfl, rfl, hgrows, hu, ⟨address, ha, ?_⟩, hr, replaced, hreplaced, ?_⟩
  · exact Except.ok.inj (ha.symm.trans hu')
  · exact Except.ok.inj (hreplaced.symm.trans hr')

end Site

end RefDoc
