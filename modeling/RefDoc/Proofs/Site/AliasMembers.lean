import RefDoc.Proofs.Site.Canonical

namespace RefDoc.Site

variable {site : Site} {name target short : String}

theorem sentTo_anchor_iff {page : String} : site.resolver.SentTo name page ("#" ++ short) ↔
    site.hasPage (site.resolver.canonical name) = false ∧ ∃ parent,
      Name.split? (site.resolver.canonical name) = some (parent, short) ∧
      site.resolver.canonical parent ∈ site.catalog.symbols ∧
      site.resolver.canonical parent = page := by
  rw [← Bool.not_eq_true, hasPage_iff]
  constructor
  · intro hs
    generalize ha : "#" ++ short = anchor at hs
    cases hs with
    | own => simp at ha
    | @parent parent last hp hsplit hi =>
      obtain rfl := (String.append_right_inj _).mp ha
      exact ⟨hp, parent, hsplit, hi, rfl⟩
  · rintro ⟨hp, parent, hsplit, hi, rfl⟩
    exact .parent hp hsplit hi

theorem sentTo_member_of_alias (ha : site.catalog.aliases.find? name = some target)
    (hdot : '.' ∉ short.toList) (hindexed : name ++ "." ++ short ∉ site.catalog.symbols)
    (halias : name ++ "." ++ short ∉ site.catalog.aliases) :
    site.resolver.SentTo (name ++ "." ++ short) target ("#" ++ short) := by
  have hp : ¬ site.hasPage (name ++ "." ++ short) = true := fun h =>
    hindexed (hasPage_iff.mp h).mem
  have htarget := (site.direct name target ha).1
  rw [← canonical_of_find? ha] at htarget ⊢
  exact sentTo_member hdot halias hp htarget

theorem url_member_eq_iff (ha : site.catalog.aliases.find? name = some target)
    (hdot : '.' ∉ short.toList) (hindexed : name ++ "." ++ short ∉ site.catalog.symbols)
    (halias : name ++ "." ++ short ∉ site.catalog.aliases) (other root : String) :
    site.resolver.url (name ++ "." ++ short) root = site.resolver.url other root ↔
      site.hasPage (site.resolver.canonical other) = false ∧ ∃ parent,
        Name.split? (site.resolver.canonical other) = some (parent, short) ∧
        site.resolver.canonical parent ∈ site.catalog.symbols ∧
        Name.pagePath (site.resolver.canonical parent) = Name.pagePath target := by
  rw [(sentTo_member_of_alias ha hdot hindexed halias).url_eq_iff]
  simp only [sentTo_anchor_iff]
  constructor
  · rintro ⟨_, ⟨hp, parent, hsplit, hi, rfl⟩, hpath⟩
    exact ⟨hp, parent, hsplit, hi, hpath⟩
  · rintro ⟨hp, parent, hsplit, hi, hpath⟩
    exact ⟨_, ⟨hp, parent, hsplit, hi, rfl⟩, hpath⟩

/-- A member of an alias is an anchor on the page of the canonical symbol. -/
theorem url_member_of_alias (site : Site) {name target short : String}
    (ha : site.catalog.aliases.find? name = some target) (hdot : '.' ∉ short.toList)
    (hindexed : name ++ "." ++ short ∉ site.catalog.symbols)
    (halias : name ++ "." ++ short ∉ site.catalog.aliases) (root : String) :
    site.resolver.url (name ++ "." ++ short) root =
      .ok (Url.join root (Name.pagePath target) ++ "#" ++ short) ∧
    (site.resolver.url (name ++ "." ++ short) root =
        site.resolver.url (target ++ "." ++ short) root ↔
      site.hasPage (site.resolver.canonical (target ++ "." ++ short)) = false ∧ ∃ parent,
        Name.split? (site.resolver.canonical (target ++ "." ++ short)) = some (parent, short) ∧
        site.resolver.canonical parent ∈ site.catalog.symbols ∧
        Name.pagePath (site.resolver.canonical parent) = Name.pagePath target) ∧
    (target ++ "." ++ short ∉ site.catalog.aliases →
      (site.resolver.url (name ++ "." ++ short) root =
          site.resolver.url (target ++ "." ++ short) root ↔
        site.hasPage (target ++ "." ++ short) = false)) := by
  have hiff := url_member_eq_iff ha hdot hindexed halias (target ++ "." ++ short) root
  refine ⟨?_, hiff, ?_⟩
  · rw [(sentTo_member_of_alias ha hdot hindexed halias).url_eq, String.append_assoc]
  · intro hmember
    -- The target of an alias is indexed and no alias, so its member lies on the target's page.
    obtain ⟨htarget, hdirect⟩ := site.direct name target ha
    rw [hiff, canonical_eq_self hmember]
    have hself := canonical_eq_self hdirect
    apply and_iff_left
    exact ⟨target, Name.split?_append target hdot, hself.symm ▸ htarget, congrArg _ hself⟩

def secondNames : Site where
  catalog :=
    let symbol (kind : Kind) : Symbol := ⟨kind, none, none, none⟩
    { symbols := .ofList [("lib", symbol .module), ("lib.f", symbol .function),
        ("lib.C", symbol .cls), ("lib.C.g", symbol .function)]
      aliases := .ofList [("np", "lib"), ("C", "lib.C")]
      tree := .empty
      documents := .empty
      guides := .empty
      moduleNames := [] }
  options := {}
  direct := Aliases.misplaced?_eq_none_iff.mp (by decide +kernel)

theorem url_member_of_alias_method :
    secondNames.catalog.aliases.find? "C" = some "lib.C" ∧
      "C.g" ∉ secondNames.catalog.symbols ∧ "C.g" ∉ secondNames.catalog.aliases ∧
      secondNames.resolver.url "C.g" ".." = .ok "../lib/C.md#g" ∧
      secondNames.resolver.url "C.g" ".." = secondNames.resolver.url "lib.C.g" ".." := by
  have ha : secondNames.catalog.aliases.find? "C" = some "lib.C" := by decide +kernel
  have hindexed : "C" ++ "." ++ "g" ∉ secondNames.catalog.symbols := by decide +kernel
  have halias : "C" ++ "." ++ "g" ∉ secondNames.catalog.aliases := by decide +kernel
  obtain ⟨hurl, -, hiff⟩ := url_member_of_alias secondNames ha (by decide) hindexed halias ".."
  have hp : secondNames.hasPage "lib.C.g" = false := by decide +kernel
  exact ⟨ha, hindexed, halias, hurl, (hiff (by decide +kernel)).mpr hp⟩

/-- The function of the module has a page, and its second name does not lead there. -/
theorem url_member_of_alias_ne :
    secondNames.catalog.aliases.find? "np" = some "lib" ∧ "f" ≠ "" ∧ '.' ∉ "f".toList ∧
      "np.f" ∉ secondNames.catalog.symbols ∧ "np.f" ∉ secondNames.catalog.aliases ∧
      secondNames.resolver.url "np.f" "." = .ok "./lib.md#f" ∧
      secondNames.resolver.url "lib.f" "." = .ok "./lib/f.md" ∧
      secondNames.resolver.url "np.f" "." ≠ secondNames.resolver.url "lib.f" "." := by
  decide +kernel

end RefDoc.Site
