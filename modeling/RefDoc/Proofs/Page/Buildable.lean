import RefDoc.Proofs.OverBound
import RefDoc.Proofs.Site.Listing

namespace RefDoc

open Reference

def Symbol.WithinBounds (s : Symbol) : Prop :=
  ∀ callable, s.callable? = some callable →
    Binding.total callable.bindings ≤ callable.signature.names.length

namespace Site

variable {site : Site} {name short root given : String} {s : Symbol} {c : Child}

/-- What a page needs of a symbol: its references resolve, and it is not bound too often. -/
structure Sound (site : Site) (root : String) (s : Symbol) : Prop where
  tokens : ∀ body, .token body ∈ fragments s.rawDocstring.toList →
    ∃ linked, site.resolver.resolveBody (String.ofList body) root = .ok linked
  bindings : s.WithinBounds

/-- Whether a name is that of a child of something indexed. -/
def Anchored (site : Site) (name : String) : Prop :=
  ∃ parent last, Name.split? name = some (parent, last) ∧
    site.resolver.canonical parent ∈ site.catalog.symbols

theorem Sound.exists_docstring (h : site.Sound root s) :
    ∃ doc, site.docstring s root = .ok doc := by
  obtain ⟨text, ht⟩ := (site.resolver.exists_replace_iff).mpr h.tokens
  exact ⟨_, docstring_eq_ok_iff.mpr ⟨text, ht, rfl⟩⟩

theorem Sound.exists_signature (h : site.Sound root s) : ∃ text, site.signature s = .ok text := by
  rw [signature, Symbol.shownSignature]
  cases hc : s.callable? with
  | none => exact ⟨_, rfl⟩
  | some callable =>
    obtain ⟨rest, hr⟩ := Signature.exists_bind_iff.mpr (h.bindings callable hc)
    rw [← Callable.free] at hr
    exact ⟨_, by simp only [hr]; rfl⟩

theorem Sound.exists_memberSignature (h : site.Sound root s) :
    ∃ signature?, site.memberSignature s = .ok signature? := by
  rw [memberSignature]
  split
  · obtain ⟨text, ht⟩ := h.exists_signature
    exact ⟨some text, by rw [ht]; rfl⟩
  · exact ⟨none, rfl⟩

theorem Sound.exists_moduleMember (h : site.Sound root c.symbol) (hk : site.AliasesAgree)
    (hc : site.child name short = .ok c) : ∃ m, site.moduleMember root c = .ok m := by
  obtain ⟨doc, hd⟩ := h.exists_docstring
  obtain ⟨signature?, hs⟩ := h.exists_memberSignature
  obtain ⟨url?, hu⟩ : ∃ url?, (if c.symbol.kind.mayHavePage = true then
      some <$> site.memberUrl c.fullName root else pure none) = .ok url? := by
    split
    · next hp =>
      obtain ⟨address, ha, -⟩ := exists_memberUrl hk hc hp root
      exact ⟨some address, by rw [ha]; rfl⟩
    · exact ⟨none, rfl⟩
  exact ⟨_, moduleMember_eq_ok_iff.mpr ⟨url?, doc, signature?, hd, hu, hs, rfl⟩⟩

theorem Sound.exists_classMember_iff (h : site.Sound root c.symbol) :
    (∃ m, site.classMember root c = .ok m) ↔ ∃ url, site.memberUrl c.fullName root = .ok url := by
  constructor
  · intro hm
    obtain ⟨m, hm⟩ := hm
    obtain ⟨url, _, _, hu, -⟩ := classMember_eq_ok_iff.mp hm
    exact ⟨url, hu⟩
  · intro hu
    obtain ⟨url, hu⟩ := hu
    obtain ⟨doc, hd⟩ := h.exists_docstring
    obtain ⟨signature?, hs⟩ := h.exists_memberSignature
    exact ⟨_, classMember_eq_ok_iff.mpr ⟨url, doc, signature?, hu, hd, hs, rfl⟩⟩

theorem exists_url_iff_anchored {t : Symbol}
    (ht : site.catalog.symbols.find? (site.resolver.canonical name) = some t)
    (hp : t.kind.mayHavePage = false) :
    (∃ address, site.resolver.url name root = .ok address) ↔
      site.Anchored (site.resolver.canonical name) := by
  have hown : ¬ site.resolver.HasPage (site.resolver.canonical name) := by
    rw [← hasPage_iff, hasPage_eq ht, Catalog.ownsPage_iff, hp]
    exact fun h => absurd h.1 (by decide)
  rw [Resolver.exists_url_iff]
  constructor
  · rintro ⟨_, _, hs⟩
    cases hs with
    | own h => exact absurd h hown
    | @parent parent last _ hs hi => exact ⟨parent, last, hs, hi⟩
  · rintro ⟨parent, last, hs, hi⟩
    exact ⟨_, _, .parent hown hs hi⟩

theorem anchored_child (hne : name ≠ "") (hname : name ∉ site.catalog.aliases)
    (hi : name ∈ site.catalog.symbols) (hdot : '.' ∉ short.toList) :
    site.Anchored (Name.child name short) := by
  have hchild : Name.child name short = name ++ "." ++ short := if_neg hne
  refine ⟨name, short, ?_, ?_⟩
  · rw [hchild]
    exact Name.split?_append name hdot
  · rwa [canonical_eq_self hname]

theorem exists_memberUrl_iff (hk : site.AliasesAgree) (hne : name ≠ "")
    (hname : name ∉ site.catalog.aliases) (hi : name ∈ site.catalog.symbols)
    (hdot : '.' ∉ short.toList) (hc : site.child name short = .ok c) :
    (∃ url, site.memberUrl c.fullName root = .ok url) ↔
      (c.symbol.kind.mayHavePage = false → c.fullName ∈ site.catalog.aliases →
        site.Anchored (site.resolver.canonical c.fullName)) := by
  obtain ⟨-, -, hn, hs⟩ := child_eq_ok_iff.mp hc
  cases hp : c.symbol.kind.mayHavePage with
  | true =>
    obtain ⟨address, ha, -⟩ := exists_memberUrl hk hc hp root
    simp [ha]
  | false =>
    obtain ⟨t, ht, htk⟩ := find?_canonical hk hs
    simp only [memberUrl_eq_ok_iff, exists_url_iff_anchored ht (htk ▸ hp), forall_const]
    constructor
    · exact fun h _ => h
    · intro h
      by_cases ha : c.fullName ∈ site.catalog.aliases
      · exact h ha
      · rw [canonical_eq_self ha, hn]
        exact anchored_child hne hname hi hdot

theorem exists_members_iff {make : Child → Except BuildError Member}
    {children : List (Except Warning Child)} :
    (∃ ms, (members make children).result = .ok ms) ↔
      ∀ c, .ok c ∈ children → ∃ m, make c = .ok m := by
  simp only [result_members, exists_mapM_iff, mem_visible]

/-- Whether a class child has an address. -/
def Addressed (site : Site) (c : Child) : Prop :=
  c.symbol.kind.mayHavePage = false → c.fullName ∈ site.catalog.aliases →
    site.Anchored (site.resolver.canonical c.fullName)

theorem exists_body_iff (hk : site.AliasesAgree) (hne : name ≠ "")
    (hname : name ∉ site.catalog.aliases) (hs : site.catalog.symbols.find? name = some s)
    (hp : s.kind.mayHavePage = true)
    (hdots : ∀ short ∈ (site.catalog.tree.find? name).getD [], '.' ∉ short.toList)
    (hown : site.Sound root s)
    (hchildren : ∀ c, .ok c ∈ site.children name → site.Sound root c.symbol) :
    (∃ body, (site.body name root s given).result = .ok body) ↔
      (s.kind = .cls → ∀ c, .ok c ∈ site.children name → site.Addressed c) := by
  cases hkind : s.kind with
  | function =>
    rw [body_function (.inl hkind), exists_map_iff]
    simp [hown.exists_signature]
  -- A module asks for the address of linked members only, a class for that of every child.
  | module =>
    rw [body_module hkind, exists_map_iff, exists_members_iff]
    simp only [reduceCtorEq, false_implies, iff_true]
    intro c hc
    obtain ⟨short, -, hchild⟩ := mem_children.mp hc
    exact (hchildren c hc).exists_moduleMember hk hchild
  | cls =>
    rw [body_cls hkind, exists_map_iff, exists_members_iff]
    simp only [forall_const]
    apply forall_congr'
    intro c
    apply imp_congr_right
    intro hc
    obtain ⟨short, hm, hchild⟩ := mem_children.mp hc
    rw [(hchildren c hc).exists_classMember_iff]
    have hi : name ∈ site.catalog.symbols := Table.mem_of_find? hs
    exact exists_memberUrl_iff hk hne hname hi (hdots short hm) hchild
  | property =>
    rw [hkind] at hp
    cases hp
  | other =>
    rw [hkind] at hp
    cases hp

/-- Where texts resolve and bounds are kept, a page is built if each class child has an address. -/
theorem page_exists_iff (site : Site) {name : String} {s : Symbol} (hk : site.AliasesAgree)
    (hne : name ≠ "") (hname : name ∉ site.catalog.aliases)
    (hs : site.catalog.symbols.find? name = some s) (hp : site.hasPage name = true)
    (hdots : ∀ short ∈ (site.catalog.tree.find? name).getD [], '.' ∉ short.toList)
    (hown : site.Sound (Name.rootPath name) s)
    (hchildren : ∀ c, .ok c ∈ site.children name → site.Sound (Name.rootPath name) c.symbol) :
    (∃ page, (site.page name s).result = .ok page) ↔
      (s.kind = .cls → ∀ c, .ok c ∈ site.children name → site.Addressed c) := by
  rw [hasPage_eq hs, Catalog.ownsPage_iff] at hp
  have hbody : (∃ body, (site.body name (Name.rootPath name) s name).result = .ok body) ↔
      (s.kind = .cls → ∀ c, .ok c ∈ site.children name → site.Addressed c) :=
    exists_body_iff hk hne hname hs hp.1 hdots hown hchildren
  rw [← hbody]
  simp only [page_eq_ok_iff, canonical_eq_self hname]
  constructor
  · rintro ⟨_, _, body, -, hb, -⟩
    exact ⟨body, hb⟩
  · rintro ⟨body, hb⟩
    obtain ⟨doc, hd⟩ := hown.exists_docstring
    exact ⟨_, doc, body, hd, hb, rfl⟩

def movedConstants : Site where
  catalog :=
    let symbol (kind : Kind) : Symbol := ⟨kind, none, none, none⟩
    { symbols := .ofList [("m", symbol .module), ("m.C", symbol .cls), ("m.C.LIMIT", symbol .other),
        ("base.LIMIT", symbol .other), ("m.D", symbol .cls), ("m.D.SIZE", symbol .other),
        ("m.SIZE", symbol .other)]
      aliases := .ofList [("m.C.LIMIT", "base.LIMIT"), ("m.D.SIZE", "m.SIZE")]
      tree := .ofList [("m.C", ["LIMIT"]), ("m.D", ["SIZE"])]
      documents := .empty
      guides := .empty
      moduleNames := [] }
  options := {}
  direct := Aliases.misplaced?_eq_none_iff.mp (by decide +kernel)

theorem aliasesAgree_movedConstants : movedConstants.AliasesAgree := by
  intro name target s t ha hs ht
  have hm : (name, target) ∈ [("m.C.LIMIT", "base.LIMIT"), ("m.D.SIZE", "m.SIZE")] :=
    Table.find?_eq_some_iff.mp ha
  have hkinds : ∀ entry ∈ [("m.C.LIMIT", "base.LIMIT"), ("m.D.SIZE", "m.SIZE")],
      movedConstants.catalog.symbols.find? entry.1 =
        movedConstants.catalog.symbols.find? entry.2 := by decide +kernel
  rw [hkinds _ hm, ht] at hs
  cases hs
  rfl

theorem sound_movedConstants (hs : movedConstants.catalog.symbols.find? name = some s) :
    movedConstants.Sound root s := by
  have hbare : ∀ entry ∈ movedConstants.catalog.symbols.entries,
      entry.2.rawDocstring = "" ∧ entry.2.callable? = none := by decide +kernel
  obtain ⟨hd, hc⟩ := hbare _ (Table.find?_eq_some_iff.mp hs)
  dsimp only at hd hc
  constructor
  · rw [hd, String.toList_empty, fragments_nil]
    exact fun _ hm => absurd hm List.not_mem_nil
  · intro callable h
    cases hc.symm.trans h

theorem sound_children_movedConstants :
    ∀ c, .ok c ∈ movedConstants.children name → movedConstants.Sound root c.symbol := by
  intro c hc
  obtain ⟨short, -, hchild⟩ := mem_children.mp hc
  obtain ⟨-, -, -, hs⟩ := child_eq_ok_iff.mp hchild
  exact sound_movedConstants hs

theorem page_exists_movedConstants :
    movedConstants.AliasesAgree ∧ movedConstants.hasPage "m.D" = true ∧
      movedConstants.Sound (Name.rootPath "m.D") ⟨.cls, none, none, none⟩ ∧
      movedConstants.resolver.canonical "m.D.SIZE" = "m.SIZE" ∧
      ∃ page, (movedConstants.page "m.D" ⟨.cls, none, none, none⟩).result = .ok page := by
  have hs : movedConstants.catalog.symbols.find? "m.D" = some ⟨.cls, none, none, none⟩ := by
    decide +kernel
  have hp : movedConstants.hasPage "m.D" = true := by decide +kernel
  have hc : movedConstants.resolver.canonical "m.D.SIZE" = "m.SIZE" := by decide +kernel
  have hchildren : movedConstants.children "m.D" =
      [.ok ⟨"SIZE", "m.D.SIZE", ⟨.other, none, none, none⟩⟩] := by decide +kernel
  refine ⟨aliasesAgree_movedConstants, hp, sound_movedConstants hs, hc, ?_⟩
  have hiff := page_exists_iff movedConstants aliasesAgree_movedConstants (by decide)
    (by decide +kernel) hs hp (by decide +kernel) (sound_movedConstants hs)
    sound_children_movedConstants
  apply hiff.mpr
  intro _ c hm _ _
  rw [hchildren] at hm
  cases List.mem_singleton.mp hm
  rw [hc]
  exact ⟨"m", "SIZE", by decide +kernel, by decide +kernel⟩

theorem result_body_movedConstants :
    (movedConstants.body "m.C" ".." ⟨.cls, none, none, none⟩ "m.C").result =
      .error (.unresolved ⟨"m.C.LIMIT", .noSymbolOrParent⟩) := by
  have hchildren : visible (movedConstants.children "m.C") =
      [⟨"LIMIT", "m.C.LIMIT", ⟨.other, none, none, none⟩⟩] := by decide +kernel
  have hu : movedConstants.memberUrl "m.C.LIMIT" ".." =
      .error (.unresolved ⟨"m.C.LIMIT", .noSymbolOrParent⟩) := by decide +kernel
  have hmake : movedConstants.classMember ".." ⟨"LIMIT", "m.C.LIMIT", ⟨.other, none, none, none⟩⟩ =
      .error (.unresolved ⟨"m.C.LIMIT", .noSymbolOrParent⟩) := by
    rw [classMember, hu]
    rfl
  rw [body_cls rfl, result_members, hchildren, List.mapM_cons, hmake]
  rfl

/-- The page of the other class is not built, although no text or signature on it is at fault. -/
theorem page_fails_movedConstants :
    movedConstants.AliasesAgree ∧ "m.C" ∉ movedConstants.catalog.aliases ∧
      movedConstants.catalog.symbols.find? "m.C" = some ⟨.cls, none, none, none⟩ ∧
      movedConstants.hasPage "m.C" = true ∧
      (∀ short ∈ (movedConstants.catalog.tree.find? "m.C").getD [], '.' ∉ short.toList) ∧
      movedConstants.Sound (Name.rootPath "m.C") ⟨.cls, none, none, none⟩ ∧
      (∀ c, .ok c ∈ movedConstants.children "m.C" →
        movedConstants.Sound (Name.rootPath "m.C") c.symbol) ∧
      (movedConstants.page "m.C" ⟨.cls, none, none, none⟩).result =
        .error (.unresolved ⟨"m.C.LIMIT", .noSymbolOrParent⟩) := by
  have hs : movedConstants.catalog.symbols.find? "m.C" = some ⟨.cls, none, none, none⟩ := by
    decide +kernel
  refine ⟨aliasesAgree_movedConstants, by decide +kernel, hs, by decide +kernel,
    by decide +kernel, sound_movedConstants hs, sound_children_movedConstants, ?_⟩
  have hroot : movedConstants.resolver.canonical "m.C" = "m.C" := by decide +kernel
  have hname : Name.rootPath "m.C" = ".." := by decide +kernel
  simp only [Site.page, Report.result_bind, Report.result_ofExcept, hroot, hname,
    result_body_movedConstants, docstring_of_none]
  rfl

end Site

end RefDoc
