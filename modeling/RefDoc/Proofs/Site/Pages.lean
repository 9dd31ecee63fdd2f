import RefDoc.Proofs.Site.Links

namespace RefDoc

variable {site : Site} {name : String} {s : Symbol}

namespace Catalog

theorem isClassMember_iff {c : Catalog} : c.isClassMember name = true ↔
    ∃ parent last s, Name.split? name = some (parent, last) ∧
      c.symbols.find? parent = some s ∧ s.kind = .cls := by
  simp only [isClassMember, Name.parent?, Option.any_eq_true, Option.bind_eq_some_iff,
    Option.map_eq_some_iff, Prod.exists, beq_iff_eq]
  constructor
  · rintro ⟨s, ⟨_, ⟨parent, last, hn, rfl⟩, hs⟩, hk⟩
    exact ⟨parent, last, s, hn, hs, hk⟩
  · rintro ⟨parent, last, s, hn, hs, hk⟩
    exact ⟨s, ⟨parent, ⟨parent, last, hn, rfl⟩, hs⟩, hk⟩

theorem ownsPage_iff {c : Catalog} : c.ownsPage name s = true ↔
    s.kind.mayHavePage = true ∧ (s.kind = .cls ∨ c.isClassMember name = false) := by
  rw [ownsPage, Bool.and_eq_true, Bool.or_eq_true, beq_iff_eq, Bool.not_eq_true']

end Catalog

namespace Site

theorem hasPage_eq (hs : site.catalog.symbols.find? name = some s) :
    site.hasPage name = site.catalog.ownsPage name s := by
  rw [hasPage, Catalog.hasPage, hs, Option.any_some]

theorem hasPage_of_cls (hs : site.catalog.symbols.find? name = some s) (hk : s.kind = .cls) :
    site.hasPage name = true := by
  rw [hasPage_eq hs, Catalog.ownsPage_iff, hk]
  exact ⟨rfl, .inl rfl⟩

/-- A symbol that may have a page has none only as a member of a class. -/
theorem isClassMember_of_not_hasPage (hs : site.catalog.symbols.find? name = some s)
    (hk : s.kind.mayHavePage = true) (hp : ¬ site.hasPage name = true) :
    site.catalog.isClassMember name = true := by
  rw [hasPage_eq hs, Catalog.ownsPage_iff, not_and] at hp
  cases hm : site.catalog.isClassMember name with
  | true => rfl
  | false => exact absurd (.inr hm) (hp hk)

theorem canonical_eq_self (h : name ∉ site.catalog.aliases) :
    site.resolver.canonical name = name := by
  rw [Resolver.canonical, show site.resolver.aliases.find? name = none from
    Table.find?_eq_none_iff.mpr h]
  rfl

theorem canonical_of_find? {target : String}
    (h : site.catalog.aliases.find? name = some target) : site.resolver.canonical name = target :=
  congrArg (Option.getD · name) h

theorem sentTo_member {parent short : String} (hdot : '.' ∉ short.toList)
    (hmember : parent ++ "." ++ short ∉ site.catalog.aliases)
    (hp : ¬ site.hasPage (parent ++ "." ++ short) = true)
    (hparent : site.resolver.canonical parent ∈ site.catalog.symbols) :
    site.resolver.SentTo (parent ++ "." ++ short) (site.resolver.canonical parent)
      ("#" ++ short) := by
  have hcanonical := canonical_eq_self hmember
  apply Resolver.SentTo.parent _ _ hparent
  · rw [hcanonical, ← hasPage_iff]
    exact hp
  · rw [hcanonical]
    exact Name.split?_append parent hdot

end Site

end RefDoc
