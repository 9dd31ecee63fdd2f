import RefDoc.Page.Markdown
import RefDoc.Proofs.Page.Filing
import RefDoc.Proofs.Text.Order

namespace RefDoc

theorem ClassMembers.markdown_ofList_eq {ms ms' : List Member} (h : ms.Perm ms')
    (hn : (ms.map Member.shortName).Nodup) : (ofList ms).markdown = (ofList ms').markdown := by
  have hsort (test : Member → Bool) :
      Member.sort (ms.filter test) = Member.sort (ms'.filter test) :=
    Text.sortOn_eq_of_perm (h.filter test) (hn.sublist (List.filter_sublist.map _))
  -- Links are sorted as texts, so here equal short names would do no harm.
  have hlinks (test : Member → Bool) : Text.sort ((ms.filter test).map Member.classLink) =
      Text.sort ((ms'.filter test).map Member.classLink) :=
    Text.sort_eq_of_perm ((h.filter test).map _)
  simp only [markdown, ofList, hsort, hlinks]

namespace Site

def withTree (site : Site) (tree : Table (List String)) : Site :=
  { site with catalog := { site.catalog with tree } }

variable {site : Site} {tree : Table (List String)} {name root given : String} {s : Symbol}
  {make : Child → Except BuildError Member} {page page' : Page}

theorem visible_children_perm (h : (site.listed name).Perm ((site.withTree tree).listed name)) :
    (visible (site.children name)).Perm (visible ((site.withTree tree).children name)) :=
  (h.map (site.child name)).filterMap _

theorem exists_members_of_perm {ms : List Member}
    (h : (site.listed name).Perm ((site.withTree tree).listed name))
    (hms : (members make (site.children name)).result = .ok ms) :
    ∃ ms', (members make ((site.withTree tree).children name)).result = .ok ms' ∧ ms.Perm ms' := by
  rw [result_members] at hms
  obtain ⟨ms', hms', hperm⟩ := exists_mapM_of_perm (visible_children_perm h) hms
  exact ⟨ms', (result_members _ _).trans hms', hperm⟩

theorem exists_body_of_perm (h : (site.listed name).Perm ((site.withTree tree).listed name))
    (hb : ∃ body, (site.body name root s given).result = .ok body) :
    ∃ body, ((site.withTree tree).body name root s given).result = .ok body := by
  cases hk : s.kind with
  | function =>
    rw [body_function (.inl hk)] at hb ⊢
    exact hb
  | property =>
    rw [body_function (.inr hk)] at hb ⊢
    exact hb
  | other =>
    rw [body_other hk] at hb ⊢
    exact hb
  | cls =>
    rw [body_cls hk, exists_map_iff] at hb ⊢
    obtain ⟨ms, hms⟩ := hb
    obtain ⟨ms', hms', -⟩ := exists_members_of_perm h hms
    exact ⟨ms', hms'⟩
  | module =>
    rw [body_module hk, exists_map_iff] at hb ⊢
    obtain ⟨ms, hms⟩ := hb
    obtain ⟨ms', hms', -⟩ := exists_members_of_perm h hms
    exact ⟨ms', hms'⟩

theorem exists_page_of_perm (hname : site.resolver.canonical given = name)
    (h : (site.listed name).Perm ((site.withTree tree).listed name))
    (hp : (site.page given s).result = .ok page) :
    ∃ page', ((site.withTree tree).page given s).result = .ok page' := by
  subst hname
  obtain ⟨doc, body, hd, hb, -⟩ := page_eq_ok_iff.mp hp
  obtain ⟨body', hb'⟩ := exists_body_of_perm h ⟨body, hb⟩
  exact ⟨_, page_eq_ok_iff.mpr ⟨doc, body', hd, hb', rfl⟩⟩

/-- Only the body of a page reads the tree. -/
theorem page_withTree (hname : site.resolver.canonical given = name)
    (hp : (site.page given s).result = .ok page)
    (hp' : ((site.withTree tree).page given s).result = .ok page') :
    (site.body name (Name.rootPath name) s given).result = .ok page.body ∧
      ∃ body', ((site.withTree tree).body name (Name.rootPath name) s given).result = .ok body' ∧
        page' = { page with body := body' } := by
  subst hname
  obtain ⟨doc, body, hd, hb, rfl⟩ := page_eq_ok_iff.mp hp
  obtain ⟨doc', body', hd', hb', rfl⟩ := page_eq_ok_iff.mp hp'
  obtain rfl : doc = doc' := Except.ok.inj (hd.symm.trans hd')
  exact ⟨hb, body', hb', rfl⟩

theorem markdown_eq_of_cls (hname : site.resolver.canonical given = name) (hk : s.kind = .cls)
    (h : (site.listed name).Perm ((site.withTree tree).listed name))
    (hn : (site.listed name).Nodup) (hp : (site.page given s).result = .ok page)
    (hp' : ((site.withTree tree).page given s).result = .ok page') :
    page.markdown = page'.markdown := by
  obtain ⟨hb, body', hb', rfl⟩ := page_withTree hname hp hp'
  rw [body_cls hk] at hb hb'
  obtain ⟨ms, hms, hbody⟩ := map_eq_ok_iff.mp hb
  obtain ⟨ms', hms', rfl⟩ := map_eq_ok_iff.mp hb'
  have hshown : ms.map Member.shortName = site.shown name :=
    map_shortName_eq (fun _ _ he => he.presents) (forall₂_isClassEntry hms)
  have hnames : (ms.map Member.shortName).Nodup := hshown ▸ hn.filter _
  obtain ⟨ms'', hms'', hperm⟩ := exists_members_of_perm h hms
  obtain rfl : ms' = ms'' := Except.ok.inj (hms'.symm.trans hms'')
  have hmembers := ClassMembers.markdown_ofList_eq hperm hnames
  rw [Page.markdown_cls hbody.symm, hmembers, ← Page.head_cls hbody.symm]
  exact (Page.markdown_cls rfl).symm

theorem exists_member_map (site : Site) (make : Child → Except BuildError Member) (name : String) :
    ∃ member : String → Member, ∀ (shorts : List String) (ms : List Member),
      List.Forall₂ (fun short m => ∃ c, site.child name short = .ok c ∧ make c = .ok m) shorts ms →
        ms = shorts.map member := by
  have hmember : Nonempty Member := ⟨⟨"", "", none, .other, ⟨"", "", [], .empty⟩, none, false⟩⟩
  apply exists_map_of_forall₂
  rintro short m m' ⟨c, hc, hm⟩ ⟨c', hc', hm'⟩
  obtain rfl : c = c' := Except.ok.inj (hc.symm.trans hc')
  exact Except.ok.inj (hm.symm.trans hm')

theorem markdown_of_module (hname : site.resolver.canonical given = name) (hk : s.kind = .module)
    (hp : (site.page given s).result = .ok page)
    (hp' : ((site.withTree tree).page given s).result = .ok page') :
    ∃ (member : String → Member) (front : String),
      (∀ short ∈ site.shown name, site.IsModuleEntry name short (member short)) ∧
      page.body = .module ((site.shown name).map member) ∧
      page' = { page with body := .module (((site.withTree tree).shown name).map member) } ∧
      page.markdown = front ++ String.intercalate "\n\n"
        ((site.shown name).map fun short => (member short).moduleLine) ∧
      page'.markdown = front ++ String.intercalate "\n\n"
        (((site.withTree tree).shown name).map fun short => (member short).moduleLine) := by
  obtain ⟨hb, body', hb', rfl⟩ := page_withTree hname hp hp'
  rw [body_module hk] at hb hb'
  obtain ⟨ms, hms, hbody⟩ := map_eq_ok_iff.mp hb
  obtain ⟨ms', hms', rfl⟩ := map_eq_ok_iff.mp hb'
  obtain ⟨member, hmember⟩ := site.exists_member_map (site.moduleMember (Name.rootPath name)) name
  obtain rfl : ms = (site.shown name).map member := hmember _ _ (forall₂_members hms)
  obtain rfl : ms' = ((site.withTree tree).shown name).map member :=
    hmember _ _ (forall₂_members hms')
  have hentries := forall₂_isModuleEntry hms
  rw [List.forall₂_map_right_iff, List.forall₂_same] at hentries
  refine ⟨member, page.head ++ page.doc.body ++ "\n\n## Members\n\n", hentries, hbody.symm, rfl,
    ?_, ?_⟩
  · rw [Page.markdown_module hbody.symm, List.map_map]
    rfl
  · rw [Page.markdown_module rfl, List.map_map, Page.head_module hbody.symm]
    rfl

/-- The order of the children decides the order of the entries of a module, and no more. -/
theorem page_ignores_tree_order (site : Site) (tree : Table (List String)) {given name : String}
    {s : Symbol} (hname : site.resolver.canonical given = name)
    (h : (site.listed name).Perm ((site.withTree tree).listed name)) :
    ((∃ page, (site.page given s).result = .ok page) ↔
      ∃ page, ((site.withTree tree).page given s).result = .ok page) ∧
    ∀ page page', (site.page given s).result = .ok page →
      ((site.withTree tree).page given s).result = .ok page' →
      (s.kind = .cls → (site.listed name).Nodup → page.markdown = page'.markdown) ∧
      (s.kind = .module → (site.shown name).Perm ((site.withTree tree).shown name) ∧
        ∃ (member : String → Member) (front : String),
          (∀ short ∈ site.shown name, site.IsModuleEntry name short (member short)) ∧
          page.body = .module ((site.shown name).map member) ∧
          page' = { page with body := .module (((site.withTree tree).shown name).map member) } ∧
          page.markdown = front ++ String.intercalate "\n\n"
            ((site.shown name).map fun short => (member short).moduleLine) ∧
          page'.markdown = front ++ String.intercalate "\n\n"
            (((site.withTree tree).shown name).map fun short => (member short).moduleLine)) := by
  constructor
  · constructor
    · rintro ⟨page, hp⟩
      exact exists_page_of_perm hname h hp
    · rintro ⟨page, hp⟩
      have hback : ∃ page',
          (((site.withTree tree).withTree site.catalog.tree).page given s).result = .ok page' := exists_page_of_perm hname h.symm hp
      exact hback
  · intro page page' hp hp'
    constructor
    · intro hk hn
      exact markdown_eq_of_cls hname hk h hn hp hp'
    · intro hk
      exact ⟨h.filter _, markdown_of_module hname hk hp hp'⟩

def threeMembers : Site where
  catalog :=
    let symbol (kind : Kind) : Symbol := ⟨kind, none, none, none⟩
    { symbols := .ofList [("m.C", symbol .cls), ("m.C.f", symbol .function),
        ("m.C.e", symbol .function), ("m.C.p", symbol .property)]
      aliases := .ofList [("C", "m.C")]
      tree := .ofList [("m.C", ["f", "p", "e"])]
      documents := .empty
      guides := .empty
      moduleNames := [] }
  options := {}
  direct := Aliases.misplaced?_eq_none_iff.mp (by decide +kernel)

def rotated : Table (List String) := .ofList [("m.C", ["p", "e", "f"])]

theorem page_ignores_tree_order_threeMembers : ∃ page page',
    (threeMembers.page "C" ⟨.cls, none, none, none⟩).result = .ok page ∧
      ((threeMembers.withTree rotated).page "C" ⟨.cls, none, none, none⟩).result = .ok page' ∧
      page ≠ page' ∧ page.markdown = page'.markdown := by
  have hlisted : threeMembers.listed "m.C" = ["f", "p", "e"] := by decide +kernel
  have hlisted' : (threeMembers.withTree rotated).listed "m.C" = ["p", "e", "f"] := by
    decide +kernel
  have hperm : (threeMembers.listed "m.C").Perm ((threeMembers.withTree rotated).listed "m.C") := by
    rw [hlisted, hlisted']
    decide
  have hname : threeMembers.resolver.canonical "C" = "m.C" := by decide +kernel
  obtain ⟨hiff, hsame⟩ := page_ignores_tree_order threeMembers rotated
    (s := ⟨.cls, none, none, none⟩) hname hperm
  obtain ⟨page, hp⟩ : ∃ page, (threeMembers.page "C" ⟨.cls, none, none, none⟩).result = .ok page :=
    exists_eq_ok (by decide +kernel)
  obtain ⟨page', hp'⟩ := hiff.mp ⟨page, hp⟩
  obtain ⟨hcls, -⟩ := hsame page page' hp hp'
  have hdiffer : (threeMembers.page "C" ⟨.cls, none, none, none⟩).result ≠
      ((threeMembers.withTree rotated).page "C" ⟨.cls, none, none, none⟩).result := by
    decide +kernel
  refine ⟨page, page', hp, hp', ?_, hcls rfl (by rw [hlisted]; decide)⟩
  rintro rfl
  exact hdiffer (hp.trans hp'.symm)

end Site

end RefDoc
