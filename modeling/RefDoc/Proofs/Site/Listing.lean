import RefDoc.Proofs.Page.Members
import RefDoc.Proofs.Site.Pages
import RefDoc.Site.SymbolList

namespace RefDoc

def PageBody.linkedMembers : PageBody → List Member
  | function _ => []
  | cls members => members.classes
  | module members => members.filter (·.linked)

namespace Site

variable (site : Site)

/-- Whether each alias that is indexed itself has the kind of its canonical symbol. -/
def AliasesAgree : Prop :=
  ∀ name target s t, site.catalog.aliases.find? name = some target →
    site.catalog.symbols.find? name = some s → site.catalog.symbols.find? target = some t →
    s.kind = t.kind

/-- Whether an address is that of a page, or of the anchor of a name on a page. -/
def OnPage (root name address : String) : Prop :=
  ∃ page anchor, page ∈ site.catalog.symbols ∧ page ∉ site.catalog.aliases ∧
    site.hasPage page = true ∧
    (anchor = "" ∨ ∃ parent last,
      Name.split? (site.resolver.canonical name) = some (parent, last) ∧ anchor = "#" ++ last) ∧
    address = Url.join root (Name.pagePath page) ++ anchor

variable {site} {name short root : String} {s : Symbol}

theorem find?_canonical (hk : site.AliasesAgree)
    (hs : site.catalog.symbols.find? name = some s) :
    ∃ t, site.catalog.symbols.find? (site.resolver.canonical name) = some t ∧ t.kind = s.kind := by
  rw [Resolver.canonical]
  cases ha : site.resolver.aliases.find? name with
  | none => exact ⟨s, hs, rfl⟩
  | some target =>
    obtain ⟨hm, -⟩ := site.direct name target ha
    obtain ⟨t, ht⟩ := Table.mem_iff_exists.mp hm
    exact ⟨t, ht, (hk name target s t ha hs ht).symm⟩

/-- A symbol that may have a page is sent to its own, or to that of the class it belongs to. -/
theorem exists_sentTo (hk : site.AliasesAgree) (hs : site.catalog.symbols.find? name = some s)
    (hp : s.kind.mayHavePage = true) :
    ∃ page anchor, site.resolver.SentTo name page anchor ∧ site.hasPage page = true := by
  obtain ⟨t, ht, hts⟩ := find?_canonical hk hs
  by_cases hown : site.hasPage (site.resolver.canonical name) = true
  · exact ⟨_, _, .own (hasPage_iff.mp hown), hown⟩
  · have hm := isClassMember_of_not_hasPage ht (hts ▸ hp) hown
    obtain ⟨parent, last, p, hsplit, hparent, hcls⟩ := Catalog.isClassMember_iff.mp hm
    -- the parent may be an alias in turn; its canonical symbol is then a class as well
    obtain ⟨q, hq, hqp⟩ := find?_canonical hk hparent
    have hpage := hasPage_of_cls hq (hqp.trans hcls)
    exact ⟨_, _, .parent (mt hasPage_iff.mpr hown) hsplit (hasPage_iff.mp hpage).mem, hpage⟩

theorem onPage_of_sentTo {page anchor : String} (h : site.resolver.SentTo name page anchor)
    (hp : site.hasPage page = true) :
    site.OnPage root name (Url.join root (Name.pagePath page) ++ anchor) := by
  refine ⟨page, anchor, h.mem, not_mem_aliases_of_sentTo h, hp, ?_, rfl⟩
  cases h with
  | own => exact .inl rfl
  | @parent parent last _ hs => exact .inr ⟨parent, last, hs, rfl⟩

theorem exists_url (hk : site.AliasesAgree) (hs : site.catalog.symbols.find? name = some s)
    (hp : s.kind.mayHavePage = true) (root : String) :
    ∃ address, site.resolver.url name root = .ok address ∧ site.OnPage root name address := by
  obtain ⟨page, anchor, hsent, hpage⟩ := exists_sentTo hk hs hp
  exact ⟨_, hsent.url_eq root, onPage_of_sentTo hsent hpage⟩

theorem exists_memberUrl (hk : site.AliasesAgree) {c : Child}
    (hc : site.child name short = .ok c) (hp : c.symbol.kind.mayHavePage = true) (root : String) :
    ∃ address, site.memberUrl c.fullName root = .ok address ∧
      site.OnPage root c.fullName address := by
  obtain ⟨-, -, -, hs⟩ := child_eq_ok_iff.mp hc
  obtain ⟨address, hu, ho⟩ := exists_url hk hs hp root
  exact ⟨address, memberUrl_eq_ok_iff.mpr hu, ho⟩

theorem mayHavePage_of_isListed (h : site.isListed name s = true) :
    s.kind.mayHavePage = true := by
  rw [isListed, Bool.and_eq_true] at h
  exact h.1

def Lists (site : Site) (entry : String × String) : Prop :=
  ∃ address, entry.2 = Resolver.link (Resolver.code entry.1) address ∧
    site.OnPage "." entry.1 address

def listedNames (site : Site) : List String :=
  site.catalog.symbols.keys.filter fun name =>
    (site.catalog.symbols.find? name).any (site.isListed name)

def listedLink (site : Site) (name : String) : Except Reference.Unresolved (String × String) := do
  return (name, ← site.resolver.linkTo name name "." true)

theorem listedLinks_eq : site.listedLinks = site.listedNames.mapM site.listedLink := by
  have hfilter : site.listedNames = (site.catalog.symbols.toList.filter fun entry =>
      site.isListed entry.1 entry.2).map Prod.fst := by
    rw [listedNames, Table.keys, List.filter_map, Table.toList]
    congr 1
    apply List.filter_congr
    intro entry hm
    rw [Function.comp_apply, Table.find?_eq_some_iff.mpr hm, Option.any_some]
  rw [hfilter, List.mapM_map]
  rfl

theorem listedLink_eq_ok_iff {entry : String × String} : site.listedLink name = .ok entry ↔
    ∃ address, site.resolver.url name "." = .ok address ∧
      entry = (name, Resolver.link (Resolver.code name) address) := by
  rw [listedLink, bind_eq_ok_iff]
  simp only [Resolver.linkTo_eq_ok_iff, if_true, pure, Except.pure, Except.ok.injEq]
  constructor
  · intro h
    obtain ⟨_, ⟨address, hu, rfl⟩, he⟩ := h
    exact ⟨address, hu, he.symm⟩
  · intro h
    obtain ⟨address, hu, he⟩ := h
    exact ⟨_, ⟨address, hu, rfl⟩, he.symm⟩

theorem map_fst_of_mapM_listedLink {names : List String} {links : List (String × String)}
    (h : names.mapM site.listedLink = .ok links) : links.map Prod.fst = names := by
  have hfst : List.Forall₂ Eq names (links.map Prod.fst) := by
    apply List.forall₂_map_right_iff.mpr
    apply (mapM_eq_ok_iff.mp h).imp
    intro name entry he
    obtain ⟨address, -, rfl⟩ := listedLink_eq_ok_iff.mp he
    rfl
  rw [List.forall₂_eq_eq_eq] at hfst
  exact hfst.symm

theorem exists_listedLinks (hk : site.AliasesAgree) :
    ∃ links, site.listedLinks = .ok links ∧ links.map Prod.fst = site.listedNames ∧
      ∀ entry ∈ links, site.Lists entry := by
  have hstep : ∀ name ∈ site.listedNames,
      ∃ entry, site.listedLink name = .ok entry ∧ site.Lists entry := by
    intro name hm
    obtain ⟨s, hs, hl⟩ := (Option.any_eq_true _ _).mp (List.mem_filter.mp hm).2
    obtain ⟨address, hu, ho⟩ := exists_url hk hs (mayHavePage_of_isListed hl) "."
    exact ⟨_, listedLink_eq_ok_iff.mpr ⟨address, hu, rfl⟩, address, rfl, ho⟩
  obtain ⟨links, hf⟩ := exists_forall₂ hstep
  have hlinks : site.listedNames.mapM site.listedLink = .ok links :=
    mapM_eq_ok_iff.mpr (hf.imp fun _ _ h => h.1)
  refine ⟨links, listedLinks_eq.trans hlinks, map_fst_of_mapM_listedLink hlinks, ?_⟩
  intro entry hm
  obtain ⟨_, -, -, hl⟩ := exists_left_of_forall₂ hf hm
  exact hl

theorem symbolList_eq_ok_iff {library text : String} : site.symbolList library = .ok text ↔
    ∃ links, site.listedLinks = .ok links ∧ String.intercalate "\n"
      (("# All symbols in " ++ library) :: "" ::
        (Text.sortOn Prod.fst links).map fun entry => "*  " ++ entry.2) = text := by
  rw [symbolList, bind_eq_ok_iff]
  constructor
  · rintro ⟨links, hl, ht⟩
    exact ⟨links, hl, Except.ok.inj ht⟩
  · rintro ⟨links, hl, rfl⟩
    exact ⟨links, hl, rfl⟩

theorem exists_symbolList (hk : site.AliasesAgree) (library : String) :
    ∃ entries : List (String × String),
      site.symbolList library = .ok (String.intercalate "\n"
        (("# All symbols in " ++ library) :: "" :: entries.map fun entry => "*  " ++ entry.2)) ∧
      (entries.map Prod.fst).Perm site.listedNames ∧ ∀ entry ∈ entries, site.Lists entry := by
  obtain ⟨links, hl, hnames, he⟩ := exists_listedLinks hk
  refine ⟨Text.sortOn Prod.fst links, ?_, ?_, ?_⟩
  · exact symbolList_eq_ok_iff.mpr ⟨links, hl, rfl⟩
  · rw [← hnames]
    exact (Text.sortOn_perm Prod.fst links).map Prod.fst
  · intro entry hm
    exact he entry ((Text.sortOn_perm Prod.fst links).mem_iff.mp hm)

theorem exists_child_of_mem_linkedMembers {given : String} {body : PageBody} {m : Member}
    (h : (site.body name root s given).result = .ok body) (hm : m ∈ body.linkedMembers) :
    ∃ short c url, site.child name short = .ok c ∧ c.symbol.kind.mayHavePage = true ∧
      site.memberUrl c.fullName root = .ok url ∧ m.fullName = c.fullName ∧ m.url? = some url := by
  cases hk : s.kind with
  | cls =>
    rw [body_cls hk] at h
    obtain ⟨ms, hms, rfl⟩ := map_eq_ok_iff.mp h
    obtain ⟨hm, hcls⟩ := List.mem_filter.mp hm
    obtain ⟨c, hc, hmake⟩ := exists_child_of_mem hms hm
    obtain ⟨short, -, hc⟩ := mem_children.mp hc
    obtain ⟨url, _, _, hu, -, -, rfl⟩ := classMember_eq_ok_iff.mp hmake
    have hp : c.symbol.kind = .cls := beq_iff_eq.mp hcls
    exact ⟨short, c, url, hc, hp ▸ rfl, hu, rfl, rfl⟩
  | module =>
    rw [body_module hk] at h
    obtain ⟨ms, hms, rfl⟩ := map_eq_ok_iff.mp h
    obtain ⟨hm, hp⟩ := List.mem_filter.mp hm
    obtain ⟨c, hc, hmake⟩ := exists_child_of_mem hms hm
    obtain ⟨short, -, hc⟩ := mem_children.mp hc
    obtain ⟨_, _, _, -, hu, -, rfl⟩ := moduleMember_eq_ok_iff.mp hmake
    rw [if_pos hp] at hu
    obtain ⟨url, hurl, rfl⟩ := map_eq_ok_iff.mp hu
    exact ⟨short, c, url, hc, hp, hurl, rfl, rfl⟩
  | function =>
    rw [body_function (.inl hk)] at h
    obtain ⟨signature, -, rfl⟩ := map_eq_ok_iff.mp h
    cases hm
  | property =>
    rw [body_function (.inr hk)] at h
    obtain ⟨signature, -, rfl⟩ := map_eq_ok_iff.mp h
    cases hm
  | other =>
    rw [body_other hk] at h
    cases h

theorem onPage_of_mem_linkedMembers (hk : site.AliasesAgree) {page : Page}
    (h : (site.page name s).result = .ok page) {m : Member} (hm : m ∈ page.body.linkedMembers) :
    ∃ address, m.url? = some address ∧
      site.OnPage (Name.rootPath page.fullName) m.fullName address := by
  obtain ⟨doc, body, -, hb, rfl⟩ := page_eq_ok_iff.mp h
  obtain ⟨short, c, url, hc, hp, hu, hn, ha⟩ := exists_child_of_mem_linkedMembers hb hm
  obtain ⟨address, hu', ho⟩ := exists_memberUrl hk hc hp
    (Name.rootPath (site.resolver.canonical name))
  cases hu.symm.trans hu'
  exact ⟨url, ha, hn ▸ ho⟩

/-- Each address in the list and among linked members stands on a page that a run builds. -/
theorem listings_stand_on_pages (site : Site) (hk : site.AliasesAgree) :
    (∀ library, ∃ entries : List (String × String),
      site.symbolList library = .ok (String.intercalate "\n"
        (("# All symbols in " ++ library) :: "" :: entries.map fun entry => "*  " ++ entry.2)) ∧
      (entries.map Prod.fst).Perm site.listedNames ∧ ∀ entry ∈ entries, site.Lists entry) ∧
    (∀ parent short child, site.child parent short = .ok child →
      child.symbol.kind.mayHavePage = true → ∀ root, ∃ address,
        site.memberUrl child.fullName root = .ok address ∧
        site.OnPage root child.fullName address) ∧
    (∀ name s page, (site.page name s).result = .ok page →
      ∀ m ∈ page.body.linkedMembers, ∃ address, m.url? = some address ∧
        site.OnPage (Name.rootPath page.fullName) m.fullName address) :=
  ⟨exists_symbolList hk, fun _ _ _ hc hp root => exists_memberUrl hk hc hp root,
    fun _ _ _ h _ hm => onPage_of_mem_linkedMembers hk h hm⟩

def shownMethod : Site where
  catalog :=
    let symbol (kind : Kind) : Symbol := ⟨kind, none, none, none⟩
    { symbols := .ofList [("m", symbol .module), ("m.C", symbol .cls), ("m.C.f", symbol .function),
        ("m.f", symbol .function)]
      aliases := .ofList [("m.f", "m.C.f")]
      tree := .ofList [("m", ["C", "f"])]
      documents := .empty
      guides := .empty
      moduleNames := [] }
  options := {}
  direct := Aliases.misplaced?_eq_none_iff.mp (by decide +kernel)

theorem aliasesAgree_shownMethod : shownMethod.AliasesAgree := by
  intro name target s t ha hs ht
  have hm : (name, target) ∈ [("m.f", "m.C.f")] := Table.find?_eq_some_iff.mp ha
  cases List.mem_singleton.mp hm
  have hf : shownMethod.catalog.symbols.find? "m.f" =
      shownMethod.catalog.symbols.find? "m.C.f" := by decide +kernel
  cases (hs.symm.trans hf).trans ht
  rfl

theorem listings_stand_on_pages_method :
    shownMethod.AliasesAgree ∧
      ∃ child, shownMethod.child "m" "f" = .ok child ∧ child.symbol.kind.mayHavePage = true ∧
        shownMethod.memberUrl child.fullName "." = .ok "./m/C.md#f" ∧
        shownMethod.OnPage "." "m.f" "./m/C.md#f" := by
  refine ⟨aliasesAgree_shownMethod, ⟨"f", "m.f", ⟨.function, none, none, none⟩⟩, ?_⟩
  have hc : shownMethod.child "m" "f" = .ok ⟨"f", "m.f", ⟨.function, none, none, none⟩⟩ := by
    decide +kernel
  have hu : shownMethod.memberUrl "m.f" "." = .ok "./m/C.md#f" := by decide +kernel
  obtain ⟨-, hchild, -⟩ := listings_stand_on_pages shownMethod aliasesAgree_shownMethod
  obtain ⟨address, ha, ho⟩ := hchild "m" "f" _ hc rfl "."
  cases hu.symm.trans ha
  exact ⟨hc, rfl, hu, ho⟩

end Site

end RefDoc
