import RefDoc.Proofs.Reference.Address
import RefDoc.Site.Batch

namespace RefDoc.Site

open Reference

variable (site : Site)

/-- Whether an address leads to a page that a run over all names builds, or to an anchor on one. -/
def Reaches (root address : String) : Prop :=
  ∃ page ∈ site.pageNames none, ∃ anchor, (anchor = "" ∨ ∃ fragment, anchor = "#" ++ fragment) ∧
    address = Url.join root (Name.pagePath page) ++ anchor

variable {site} {root name page anchor : String}

theorem hasPage_iff : site.hasPage name = true ↔ site.resolver.HasPage name :=
  Resolver.any_ownsPage_iff (r := site.resolver)

theorem mem_pageNames_none_iff :
    name ∈ site.pageNames none ↔ name ∉ site.catalog.aliases ∧ site.hasPage name = true := by
  simp only [pageNames, Option.getD_none, Text.mem_sort, List.mem_filter, Bool.and_eq_true,
    Bool.not_eq_true', isAlias, decide_eq_false_iff_not, and_iff_right_iff_imp,
    ← Table.mem_iff_mem_keys]
  intro hx
  obtain ⟨-, hp⟩ := hx
  exact (hasPage_iff.mp hp).mem

theorem canonical_not_mem_aliases (name : String) :
    site.resolver.canonical name ∉ site.catalog.aliases := by
  rw [Resolver.canonical]
  cases ht : site.resolver.aliases.find? name with
  | none => exact Table.find?_eq_none_iff.mp ht
  | some target => exact (site.direct name target ht).2

theorem not_mem_aliases_of_sentTo (h : site.resolver.SentTo name page anchor) :
    page ∉ site.catalog.aliases := by
  obtain ⟨known, rfl⟩ := h.exists_canonical
  exact canonical_not_mem_aliases known

theorem reaches_iff (ha : anchor = "" ∨ ∃ fragment, anchor = "#" ++ fragment) :
    site.Reaches root (Url.join root (Name.pagePath page) ++ anchor) ↔
      ∃ built ∈ site.pageNames none, Name.pagePath built = Name.pagePath page := by
  constructor
  · intro hx
    obtain ⟨built, hb, anchor', -, he⟩ := hx
    rw [Url.join_append, Url.join_append, Url.join_right_inj] at he
    have hs := Name.slashed_eq_of_append_eq he
    exact ⟨built, hb, by rw [Name.pagePath_eq, Name.pagePath_eq, hs]⟩
  · intro hx
    obtain ⟨built, hb, hp⟩ := hx
    exact ⟨built, hb, anchor, ha, by rw [hp]⟩

theorem built_iff_hasPage (h : site.resolver.SentTo name page anchor)
    (hslash : ∀ known ∈ site.catalog.symbols, '/' ∉ known.toList) :
    (∃ built ∈ site.pageNames none, Name.pagePath built = Name.pagePath page) ↔
      site.hasPage page = true := by
  constructor
  · intro hx
    obtain ⟨built, hb, hp⟩ := hx
    obtain ⟨-, hbuilt⟩ := mem_pageNames_none_iff.mp hb
    have hs : Name.slashed built = Name.slashed page :=
      Name.slashed_eq_of_append_eq (congrArg (· ++ "") hp)
    have hm : built ∈ site.catalog.symbols := (hasPage_iff.mp hbuilt).mem
    rwa [← Name.eq_of_slashed_eq hs (hslash built hm) (hslash page h.mem)]
  · intro hp
    exact ⟨page, mem_pageNames_none_iff.mpr ⟨not_mem_aliases_of_sentTo h, hp⟩, rfl⟩

/-- A reference leads to a built page just when a built page has the same path. -/
theorem resolve_reaches_iff (site : Site) {root token linked : String}
    (hbody : (bodyOf token).toList.head? ≠ some '$')
    (h : site.resolver.resolve token root = .ok linked) :
    ∃ name page anchor address : String,
      (Reference.ofBody (bodyOf token)).target = .symbol name ∧
      site.resolver.SentTo name page anchor ∧
      page ∈ site.catalog.symbols ∧ page ∉ site.catalog.aliases ∧
      address = Url.join root (Name.pagePath page) ++ anchor ∧
      linked = Resolver.link
        ((Reference.ofBody (bodyOf token)).text?.getD (Resolver.code name)) address ∧
      (site.Reaches root address ↔
        ∃ built ∈ site.pageNames none, Name.pagePath built = Name.pagePath page) ∧
      ((∀ known ∈ site.catalog.symbols, '/' ∉ known.toList) →
        (site.Reaches root address ↔ site.hasPage page = true)) := by
  obtain ⟨name, hn⟩ := Resolver.target_eq_symbol hbody
  obtain ⟨page, anchor, hs, hl⟩ := Resolver.exists_sentTo_of_resolveBody hn h
  have hr : site.Reaches root (Url.join root (Name.pagePath page) ++ anchor) ↔ _ :=
    reaches_iff hs.anchor_eq
  exact ⟨name, page, anchor, _, hn, hs, hs.mem, not_mem_aliases_of_sentTo hs, rfl, hl, hr,
    fun hslash => hr.trans (built_iff_hasPage hs hslash)⟩

def nestedProperty : Site where
  catalog :=
    let symbol (kind : Kind) : Symbol := ⟨kind, none, none, none⟩
    { symbols := .ofList [("m", symbol .module), ("m.C", symbol .cls), ("m.C.p", symbol .property),
        ("m.C.p.x", symbol .property)]
      aliases := .empty
      tree := .empty
      documents := .empty
      guides := .empty
      moduleNames := [] }
  options := {}
  direct := nofun

theorem slash_not_mem_nestedProperty :
    ∀ known ∈ nestedProperty.catalog.symbols, '/' ∉ known.toList := by
  change ∀ known ∈ nestedProperty.catalog.symbols.keys, '/' ∉ known.toList
  decide +kernel

theorem resolve_reaches_class :
    (bodyOf "m.C.p").toList.head? ≠ some '$' ∧
      nestedProperty.resolver.resolve "m.C.p" "." = .ok "[`m.C.p`](./m/C.md#p)" ∧
      ∃ address, "[`m.C.p`](./m/C.md#p)" = Resolver.link (Resolver.code "m.C.p") address ∧
        nestedProperty.Reaches "." address := by
  have hbody : (bodyOf "m.C.p").toList.head? ≠ some '$' := by decide +kernel
  have hr : nestedProperty.resolver.resolve "m.C.p" "." = .ok "[`m.C.p`](./m/C.md#p)" := by
    decide +kernel
  have ht : Reference.ofBody (bodyOf "m.C.p") = ⟨.symbol "m.C.p", none⟩ := by decide +kernel
  obtain ⟨name, page, anchor, address, hn, hs, -, -, -, hl, -, hi⟩ :=
    resolve_reaches_iff nestedProperty hbody hr
  rw [ht] at hn hl
  cases hn
  refine ⟨hbody, hr, address, hl, (hi slash_not_mem_nestedProperty).mpr ?_⟩
  cases hs with
  | own hp => exact hasPage_iff.mpr hp
  | parent hp hs =>
    have hc : Name.split? (nestedProperty.resolver.canonical "m.C.p") = some ("m.C", "p") := by
      decide +kernel
    cases hs.symm.trans hc
    decide +kernel

/-- A reference to the inner property leads to a page of the outer one, which is never built. -/
theorem not_reaches_property :
    (bodyOf "m.C.p.x").toList.head? ≠ some '$' ∧
      nestedProperty.resolver.resolve "m.C.p.x" "." =
        .ok (Resolver.link (Resolver.code "m.C.p.x") "./m/C/p.md#x") ∧
      ¬ nestedProperty.Reaches "." "./m/C/p.md#x" := by
  refine ⟨by decide +kernel, by decide +kernel, fun h => ?_⟩
  have hs : nestedProperty.resolver.SentTo "m.C.p.x" "m.C.p" ("#" ++ "x") := by
    refine .parent ?_ (by decide +kernel) (by decide +kernel)
    rw [← hasPage_iff]
    decide +kernel
  have ha : "./m/C/p.md#x" = Url.join "." (Name.pagePath "m.C.p") ++ ("#" ++ "x") := by
    decide +kernel
  rw [ha, reaches_iff hs.anchor_eq, built_iff_hasPage hs slash_not_mem_nestedProperty] at h
  exact absurd h (by decide +kernel)

end RefDoc.Site
