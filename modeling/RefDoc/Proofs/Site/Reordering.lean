import RefDoc.Proofs.Reference.Agreement
import RefDoc.Proofs.Signature
import RefDoc.Proofs.Site.Aliases
import RefDoc.Proofs.Site.Batch
import RefDoc.Proofs.Site.Listing

namespace RefDoc

/-- Whether two catalogs differ at most in the order of their entries and of bound keywords. -/
structure Catalog.Alike (c d : Catalog) : Prop where
  symbols : c.symbols.Agree Symbol.Alike d.symbols
  aliases : c.aliases.Agree Eq d.aliases
  tree : c.tree.Agree Eq d.tree
  documents : c.documents.Agree Eq d.documents
  guides : c.guides.Agree Eq d.guides
  moduleNames : c.moduleNames = d.moduleNames

namespace Catalog.Alike

variable {c d : Catalog} {s t : Symbol}

theorem isClassMember_eq (h : c.Alike d) (name : String) :
    c.isClassMember name = d.isClassMember name := by
  rw [isClassMember, isClassMember]
  cases Name.parent? name with
  | none => rfl
  | some parent =>
    apply h.symbols.any_eq
    intro s t hs
    rw [hs.kind]

theorem ownsPage_eq (h : c.Alike d) (hs : s.Alike t) (name : String) :
    c.ownsPage name s = d.ownsPage name t := by
  rw [ownsPage, ownsPage, hs.kind, h.isClassMember_eq]

theorem hasPage_eq (h : c.Alike d) (name : String) : c.hasPage name = d.hasPage name := by
  apply h.symbols.any_eq
  intro s t hs
  exact h.ownsPage_eq hs name

theorem resolver (h : c.Alike d) : c.resolver.Agree d.resolver where
  mem_symbols _ := h.symbols.mem_iff
  aliases := h.aliases
  documents := h.documents
  moduleNames := h.moduleNames
  ownsPage := h.hasPage_eq

end Catalog.Alike

theorem Guide.line_eq {guides guides' : Table (List Guide)} (h : guides.Agree Eq guides')
    (names : List String) (root : String) : line names guides root = line names guides' root := by
  have hlinks : links names guides root = links names guides' root := by
    simp only [links, h.find?_eq]
  rw [line, line, hlinks]

namespace Site

structure Alike (site site' : Site) : Prop where
  catalog : site.catalog.Alike site'.catalog
  options : site.options = site'.options

inductive ChildAlike : Except Warning Child → Except Warning Child → Prop
  | shown {short name : String} {s t : Symbol} (hs : s.Alike t) :
    ChildAlike (.ok ⟨short, name, s⟩) (.ok ⟨short, name, t⟩)
  | skipped (w : Warning) : ChildAlike (.error w) (.error w)

variable {site site' : Site} {s t : Symbol}

theorem members_eq {make make' : Child → Except BuildError Member}
    (hmake : ∀ {short name s t}, Symbol.Alike s t → make ⟨short, name, s⟩ = make' ⟨short, name, t⟩)
    {children children' : List (Except Warning Child)}
    (h : List.Forall₂ ChildAlike children children') :
    members make children = members make' children' := by
  induction h with
  | nil => rfl
  | cons hc _ ih =>
    cases hc with
    | shown hs => rw [members, members, hmake hs, ih]
    | skipped w => rw [members, members, ih]

namespace Alike

theorem child (h : site.Alike site') (parent short : String) :
    ChildAlike (site.child parent short) (site'.child parent short) := by
  rw [Site.child, Site.child, h.options]
  by_cases hh : short ∈ site'.options.hidden
  · rw [if_pos hh, if_pos hh]
    exact .skipped _
  · rw [if_neg hh, if_neg hh]
    rcases h.catalog.symbols.find?_cases (Name.child parent short) with
      ⟨hc, hd⟩ | ⟨s, t, hc, hd, hs⟩
    · rw [hc, hd]
      exact .skipped _
    · rw [hc, hd]
      exact .shown hs

theorem children (h : site.Alike site') (name : String) :
    List.Forall₂ ChildAlike (site.children name) (site'.children name) := by
  rw [Site.children, Site.children, h.catalog.tree.find?_eq, List.forall₂_map_left_iff,
    List.forall₂_map_right_iff, List.forall₂_same]
  intro short _
  exact h.child name short

theorem resolver (h : site.Alike site') : site.resolver.Agree site'.resolver :=
  h.catalog.resolver

theorem docstring_eq (h : site.Alike site') (hs : s.Alike t) (root : String) :
    site.docstring s root = site'.docstring t root := by
  rw [docstring, docstring, Symbol.rawDocstring, Symbol.rawDocstring, hs.docstring?,
    h.resolver.replace_eq, h.options]

theorem signature_eq (h : site.Alike site') (hs : s.Alike t) :
    site.signature s = site'.signature t := by
  rw [signature, signature, hs.shownSignature, h.options]

theorem memberSignature_eq (h : site.Alike site') (hs : s.Alike t) :
    site.memberSignature s = site'.memberSignature t := by
  rw [memberSignature, memberSignature, hs.kind, h.signature_eq hs]

theorem memberUrl_eq (h : site.Alike site') (name root : String) :
    site.memberUrl name root = site'.memberUrl name root := by
  rw [memberUrl, memberUrl, h.resolver.url_eq]

theorem classMember_eq (h : site.Alike site') (root : String) {short name : String}
    (hs : s.Alike t) :
    site.classMember root ⟨short, name, s⟩ = site'.classMember root ⟨short, name, t⟩ := by
  simp only [classMember, h.memberUrl_eq, h.docstring_eq hs, h.memberSignature_eq hs, hs.kind]

theorem moduleMember_eq (h : site.Alike site') (root : String) {short name : String}
    (hs : s.Alike t) :
    site.moduleMember root ⟨short, name, s⟩ = site'.moduleMember root ⟨short, name, t⟩ := by
  simp only [moduleMember, h.memberUrl_eq, h.docstring_eq hs, h.memberSignature_eq hs, hs.kind]

theorem body_eq (h : site.Alike site') (name root given : String) (hs : s.Alike t) :
    site.body name root s given = site'.body name root t given := by
  rw [body, body, hs.kind, h.signature_eq hs]
  cases t.kind with
  | function => rfl
  | property => rfl
  | other => rfl
  | cls =>
    have hmembers := members_eq (h.classMember_eq root) (h.children name)
    simp only [hmembers]
  | module =>
    have hmembers := members_eq (h.moduleMember_eq root) (h.children name)
    simp only [hmembers]

theorem otherNames_eq (h : site.Alike site') (name : String) :
    site.otherNames name = site'.otherNames name := by
  have hnames := Aliases.find?_reverse_eq h.catalog.aliases name
  rw [otherNames, otherNames, aliasesByName, aliasesByName, hnames]

theorem page_eq (h : site.Alike site') (name : String) (hs : s.Alike t) :
    site.page name s = site'.page name t := by
  simp only [page, h.resolver.canonical_eq, h.otherNames_eq, h.docstring_eq hs, h.body_eq _ _ _ hs,
    Guide.line_eq h.catalog.guides, hs.definedIn?]

theorem text?_eq (h : site.Alike site') (name : String) : site.text? name = site'.text? name := by
  apply h.catalog.symbols.bind_eq
  intro s t hs
  rw [h.page_eq name hs]

theorem failure?_eq (h : site.Alike site') (name : String) :
    site.failure? name = site'.failure? name := by
  apply h.catalog.symbols.bind_eq
  intro s t hs
  rw [h.page_eq name hs]

theorem messages_eq (h : site.Alike site') (name : String) :
    site.messages name = site'.messages name := by
  rw [messages, messages, h.failure?_eq]
  rcases h.catalog.symbols.find?_cases name with ⟨hc, hd⟩ | ⟨s, t, hc, hd, hs⟩
  · rw [hc, hd]
  · simp only [hc, hd, h.page_eq name hs]

theorem pageNames_eq (h : site.Alike site') (chosen : Option (List String)) :
    site.pageNames chosen = site'.pageNames chosen := by
  have hkept (name : String) : (!site.isAlias name && site.hasPage name) =
      (!site'.isAlias name && site'.hasPage name) := by
    simp only [isAlias, hasPage, h.catalog.aliases.mem_iff, h.catalog.hasPage_eq]
  simp only [pageNames, hkept]
  apply Text.sort_eq_of_perm
  apply List.Perm.filter
  cases chosen with
  | none => exact h.catalog.symbols.keys_perm
  | some names => exact .refl names

theorem generate_eq (h : site.Alike site') (chosen : Option (List String)) :
    site.generate chosen = site'.generate chosen := by
  have hplaced : site.placed? = site'.placed? := by
    funext name
    rw [placed?, placed?, h.text?_eq]
  simp only [Site.generate_eq, h.pageNames_eq, h.failure?_eq, h.messages_eq, hplaced]

theorem listedNames_perm (h : site.Alike site') : site.listedNames.Perm site'.listedNames := by
  have hlisted (name : String) :
      (site.catalog.symbols.find? name).any (site.isListed name) =
        (site'.catalog.symbols.find? name).any (site'.isListed name) := by
    apply h.catalog.symbols.any_eq
    intro s t hs
    rw [isListed, isListed, hs.kind, h.catalog.isClassMember_eq]
  simp only [listedNames, hlisted]
  exact h.catalog.symbols.keys_perm.filter _

end Alike

/-- The links to different names come in one order, however the names are given. -/
theorem exists_links_of_perm {names names' : List String} (hp : names.Perm names')
    (hn : names.Nodup) {links : List (String × String)}
    (h : names.mapM site.listedLink = .ok links) :
    ∃ links', names'.mapM site.listedLink = .ok links' ∧
      Text.sortOn Prod.fst links = Text.sortOn Prod.fst links' := by
  obtain ⟨links', h', hl⟩ := exists_mapM_of_perm hp h
  refine ⟨links', h', Text.sortOn_eq_of_perm hl ?_⟩
  rwa [map_fst_of_mapM_listedLink h]

theorem Alike.symbolList_iff (h : site.Alike site') (library text : String) :
    site.symbolList library = .ok text ↔ site'.symbolList library = .ok text := by
  have hlink : site.listedLink = site'.listedLink := by
    funext name
    rw [listedLink, listedLink, h.resolver.linkTo_eq]
  have hp := h.listedNames_perm
  have hn : site.listedNames.Nodup := site.catalog.symbols.nodup_keys.filter _
  rw [symbolList_eq_ok_iff, symbolList_eq_ok_iff, listedLinks_eq, listedLinks_eq, hlink]
  constructor
  · rintro ⟨links, hl, rfl⟩
    obtain ⟨links', hl', hs⟩ := exists_links_of_perm hp hn hl
    exact ⟨links', hl', by rw [hs]⟩
  · rintro ⟨links, hl, rfl⟩
    obtain ⟨links', hl', hs⟩ := exists_links_of_perm hp.symm (hp.nodup hn) hl
    exact ⟨links', hl', by rw [hs]⟩

/-- The order of a catalog and of bound keywords makes no difference to what is written. -/
theorem output_ignores_order {c d : Catalog} (h : c.Alike d) (options : Options) :
    ((∃ site, ofCatalog c options = .ok site) ↔ ∃ site', ofCatalog d options = .ok site') ∧
    ∀ site site', ofCatalog c options = .ok site → ofCatalog d options = .ok site' →
      (∀ chosen, site.generate chosen = site'.generate chosen) ∧
      ∀ library text,
        site.symbolList library = .ok text ↔ site'.symbolList library = .ok text := by
  constructor
  · rw [exists_ofCatalog_iff, exists_ofCatalog_iff]
    exact Aliases.direct_iff h.symbols h.aliases
  · intro site site' hc hd
    obtain ⟨rfl, hoptions⟩ := ofCatalog_eq_ok_iff.mp hc
    obtain ⟨rfl, rfl⟩ := ofCatalog_eq_ok_iff.mp hd
    have halike : site.Alike site' := ⟨h, hoptions⟩
    exact ⟨halike.generate_eq, halike.symbolList_iff⟩

def boundFunction (keywords : List (String × Json)) : Symbol where
  kind := .function
  docstring? := none
  callable? := some ⟨⟨["a", "b", "c"], none, none, ["1", "2"]⟩, [.keyword (.ofList keywords)]⟩
  definedIn? := none

def functionModule (symbols : List (String × Symbol)) (aliases : List (String × String)) :
    Catalog where
  symbols := .ofList symbols
  aliases := .ofList aliases
  tree := .ofList [("m", ["f"])]
  documents := .empty
  guides := .empty
  moduleNames := []

def moduleFirst : Catalog :=
  functionModule
    [("m", ⟨.module, none, none, none⟩), ("m.f", boundFunction [("a", .null), ("c", .null)])]
    [("m.g", "m.f"), ("m.h", "m.f")]

def functionFirst : Catalog :=
  functionModule
    [("m.f", boundFunction [("c", .null), ("a", .null)]), ("m", ⟨.module, none, none, none⟩)]
    [("m.h", "m.f"), ("m.g", "m.f")]

theorem alike_functionFirst : moduleFirst.Alike functionFirst where
  symbols := by
    have hf : (boundFunction [("a", .null), ("c", .null)]).Alike
        (boundFunction [("c", .null), ("a", .null)]) :=
      ⟨rfl, rfl, .some ⟨rfl, .cons (.keyword (Table.agree_of_perm (.swap _ _ _))) .nil⟩, rfl⟩
    intro key
    change Option.Rel _ (((Table.empty.insert "m" _).insert "m.f" _).find? key)
      (((Table.empty.insert "m.f" _).insert "m" _).find? key)
    simp only [Table.find?_insert]
    by_cases hm : key = "m"
    · rw [if_neg (by simp [hm]), if_pos hm, if_pos hm]
      exact .some ⟨rfl, rfl, .none, rfl⟩
    · rw [if_neg hm, if_neg hm]
      split
      · exact .some hf
      · exact .none
  aliases := Table.agree_of_perm (.swap _ _ _)
  tree := Table.agree_of_perm (.refl _)
  documents := Table.agree_of_perm .nil
  guides := Table.agree_of_perm .nil
  moduleNames := rfl

theorem output_ignores_order_functionFirst :
    moduleFirst.Alike functionFirst ∧ moduleFirst ≠ functionFirst ∧
      ∃ site site', ofCatalog moduleFirst {} = .ok site ∧ ofCatalog functionFirst {} = .ok site' ∧
        site.pageNames none = ["m", "m.f"] ∧ site.generate none = site'.generate none := by
  have hd : Aliases.Direct moduleFirst.symbols moduleFirst.aliases :=
    Aliases.misplaced?_eq_none_iff.mp (by decide +kernel)
  have hs : ofCatalog moduleFirst {} = .ok ⟨moduleFirst, {}, hd⟩ :=
    ofCatalog_eq_ok_iff.mpr ⟨rfl, rfl⟩
  obtain ⟨hiff, hsame⟩ := output_ignores_order alike_functionFirst {}
  obtain ⟨site', hs'⟩ := hiff.mp ⟨_, hs⟩
  obtain ⟨hg, -⟩ := hsame _ site' hs hs'
  have hkept : (moduleFirst.symbols.keys.filter fun name =>
      !decide (name ∈ moduleFirst.aliases) && moduleFirst.hasPage name) = ["m", "m.f"] := by
    decide +kernel
  have hnames : pageNames ⟨moduleFirst, {}, hd⟩ none = ["m", "m.f"] :=
    (congrArg Text.sort hkept).trans (List.mergeSort_of_pairwise (by decide +kernel))
  exact ⟨alike_functionFirst, by decide +kernel, _, site', hs, hs', hnames, hg none⟩

end Site

end RefDoc
