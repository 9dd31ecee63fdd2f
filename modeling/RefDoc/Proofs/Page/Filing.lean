import RefDoc.Proofs.Page.Members

namespace RefDoc

/-- The sections of a class page hold every member once. -/
theorem ClassMembers.perm_ofList (ms : List Member) :
    ((ofList ms).methods ++ (ofList ms).properties ++ (ofList ms).classes ++
      (ofList ms).others).Perm ms := by
  apply List.perm_iff_count.mpr
  intro m
  have hcount (test : Member → Bool) :
      (ms.filter test).count m = if test m then ms.count m else 0 := by
    split
    · next h => exact List.count_filter h
    · next h => exact List.count_eq_zero.mpr fun hm => h (List.mem_filter.mp hm).2
  simp only [ofList, List.count_append, hcount]
  cases m.kind <;> simp

namespace Site

section

variable (site : Site)

def listed (name : String) : List String := (site.catalog.tree.find? name).getD []

/-- Whether a page shows a child: it is not hidden, and it is indexed. -/
def IsShown (name short : String) : Prop :=
  short ∉ site.options.hidden ∧ Name.child name short ∈ site.catalog.symbols

instance (name : String) : DecidablePred (site.IsShown name) :=
  fun _ => inferInstanceAs (Decidable (_ ∧ _))

def shown (name : String) : List String := (site.listed name).filter (site.IsShown name)

def shownOf (name : String) (kinds : Kind → Bool) : List String :=
  (site.shown name).filter fun short =>
    (site.catalog.symbols.find? (Name.child name short)).any (kinds ·.kind)

def omission (name short : String) : Warning :=
  if short ∈ site.options.hidden then .hidden (Name.child name short)
  else .notIndexed (Name.child name short)

/-- Whether a member shows a child: its docstring with references resolved, and its signature. -/
structure Presents (name short : String) (s : Symbol) (m : Member) : Prop where
  symbol : site.catalog.symbols.find? (Name.child name short) = some s
  shortName : m.shortName = short
  fullName : m.fullName = Name.child name short
  kind : m.kind = s.kind
  doc : ∃ text, site.resolver.replace s.rawDocstring (Name.rootPath name) = .ok text ∧
    m.doc = Docstring.ofText text site.options.keywords
  signature : m.kind = .function → ∃ text,
    s.shownSignature site.options.receivers = .ok text ∧ m.signature? = some text
  unsigned : m.kind ≠ .function → m.signature? = none

structure IsModuleEntry (name short : String) (m : Member) : Prop where
  presents : ∃ s, site.Presents name short s m
  linked : m.linked = true ↔ m.kind = .module ∨ m.kind = .cls ∨ m.kind = .function
  url : m.linked = true → ∃ address,
    site.resolver.url m.fullName (Name.rootPath name) = .ok address ∧ m.url? = some address
  noUrl : m.linked = false → m.url? = none

structure IsClassEntry (name short : String) (m : Member) : Prop where
  presents : ∃ s, site.Presents name short s m
  linked : m.linked = true ↔ m.kind = .cls
  url : ∃ address,
    site.resolver.url m.fullName (Name.rootPath name) = .ok address ∧ m.url? = some address

end

variable {site : Site} {name short given : String} {s : Symbol} {c : Child} {m : Member}

theorem isShown_of_child (h : site.child name short = .ok c) : site.IsShown name short := by
  obtain ⟨hh, -, hn, hs⟩ := child_eq_ok_iff.mp h
  exact ⟨hh, hn ▸ Table.mem_of_find? hs⟩

theorem child_eq_error {w : Warning} (h : site.child name short = .error w) :
    ¬ site.IsShown name short ∧ w = site.omission name short := by
  rw [child] at h
  split at h
  · next hh =>
    cases h
    exact ⟨fun hs => hs.1 hh, (if_pos hh).symm⟩
  · next hh =>
    split at h
    · next hs =>
      cases h
      exact ⟨fun hm => Table.find?_eq_none_iff.mp hs hm.2, (if_neg hh).symm⟩
    · cases h

section

variable {make : Child → Except BuildError Member} {shorts : List String} {ms : List Member}

/-- The children that are shown become the members, one each and in order. -/
theorem forall₂_members (h : (members make (shorts.map (site.child name))).result = .ok ms) :
    List.Forall₂ (fun short m => ∃ c, site.child name short = .ok c ∧ make c = .ok m)
      (shorts.filter (site.IsShown name)) ms := by
  rw [result_members, mapM_eq_ok_iff] at h
  induction shorts generalizing ms with
  | nil =>
    cases h
    exact .nil
  | cons short shorts ih =>
    cases hc : site.child name short with
    | error w =>
      rw [List.map_cons, hc] at h
      rw [List.filter_cons_of_neg (by simpa using (child_eq_error hc).1)]
      exact ih h
    | ok c =>
      rw [List.map_cons, hc] at h
      obtain ⟨m, rest, hm, hrest, rfl⟩ := List.forall₂_cons_left_iff.mp h
      rw [List.filter_cons_of_pos (by simpa using isShown_of_child hc)]
      exact .cons ⟨c, hc, hm⟩ (ih hrest)

theorem warnings_members (h : (members make (shorts.map (site.child name))).result = .ok ms) :
    (members make (shorts.map (site.child name))).warnings =
      (shorts.filter (¬ site.IsShown name ·)).map (site.omission name) := by
  induction shorts generalizing ms with
  | nil => rfl
  | cons short shorts ih =>
    cases hc : site.child name short with
    | error w =>
      obtain ⟨hn, rfl⟩ := child_eq_error hc
      rw [List.map_cons, hc] at h ⊢
      rw [List.filter_cons_of_pos (by simpa using hn), List.map_cons]
      exact congrArg (site.omission name short :: ·) (ih h)
    | ok c =>
      rw [List.map_cons, hc] at h ⊢
      rw [List.filter_cons_of_neg (by simpa using isShown_of_child hc)]
      rw [members, Report.result_bind, bind_eq_ok_iff] at h
      obtain ⟨m, hm, h⟩ := h
      rw [Report.result_bind, bind_eq_ok_iff] at h
      obtain ⟨rest, hrest, -⟩ := h
      rw [members, Report.warnings_bind hm, Report.warnings_bind hrest, ← ih hrest]
      exact List.append_nil _

end

theorem presents_of_child {doc : Docstring} {signature? url? : Option String} {linked : Bool}
    (hc : site.child name short = .ok c)
    (hd : site.docstring c.symbol (Name.rootPath name) = .ok doc)
    (hs : site.memberSignature c.symbol = .ok signature?) :
    site.Presents name short c.symbol
      ⟨c.shortName, c.fullName, url?, c.symbol.kind, doc, signature?, linked⟩ := by
  obtain ⟨-, hshort, hn, hsymbol⟩ := child_eq_ok_iff.mp hc
  rw [memberSignature] at hs
  refine ⟨hn ▸ hsymbol, hshort, hn, rfl, docstring_eq_ok_iff.mp hd, ?_, ?_⟩
  · intro hk
    rw [if_pos hk] at hs
    obtain ⟨text, ht, rfl⟩ := map_eq_ok_iff.mp hs
    exact ⟨text, mapError_eq_ok_iff.mp ht, rfl⟩
  · intro hk
    rw [if_neg hk] at hs
    exact (Except.ok.inj hs).symm

theorem isClassEntry_of_child (hc : site.child name short = .ok c)
    (hm : site.classMember (Name.rootPath name) c = .ok m) : site.IsClassEntry name short m := by
  obtain ⟨url, doc, signature?, hu, hd, hs, rfl⟩ := classMember_eq_ok_iff.mp hm
  exact ⟨⟨c.symbol, presents_of_child hc hd hs⟩, beq_iff_eq, url, memberUrl_eq_ok_iff.mp hu, rfl⟩

theorem isModuleEntry_of_child (hc : site.child name short = .ok c)
    (hm : site.moduleMember (Name.rootPath name) c = .ok m) : site.IsModuleEntry name short m := by
  obtain ⟨url?, doc, signature?, hd, hu, hs, rfl⟩ := moduleMember_eq_ok_iff.mp hm
  refine ⟨⟨c.symbol, presents_of_child hc hd hs⟩, ?_, ?_, ?_⟩
  · dsimp only
    cases c.symbol.kind <;> decide
  · intro hk
    rw [if_pos hk] at hu
    obtain ⟨address, ha, rfl⟩ := map_eq_ok_iff.mp hu
    exact ⟨address, memberUrl_eq_ok_iff.mp ha, rfl⟩
  · intro hk
    dsimp only at hk
    rw [hk] at hu
    exact (Except.ok.inj hu).symm

theorem forall₂_isClassEntry {ms : List Member}
    (h : (members (site.classMember (Name.rootPath name)) (site.children name)).result = .ok ms) :
    List.Forall₂ (site.IsClassEntry name) (site.shown name) ms := by
  apply (forall₂_members h).imp
  rintro short m ⟨c, hc, hm⟩
  exact isClassEntry_of_child hc hm

theorem forall₂_isModuleEntry {ms : List Member}
    (h : (members (site.moduleMember (Name.rootPath name)) (site.children name)).result = .ok ms) :
    List.Forall₂ (site.IsModuleEntry name) (site.shown name) ms := by
  apply (forall₂_members h).imp
  rintro short m ⟨c, hc, hm⟩
  exact isModuleEntry_of_child hc hm

theorem any_kind_eq {kinds : Kind → Bool} (h : ∃ s, site.Presents name short s m) :
    (site.catalog.symbols.find? (Name.child name short)).any (kinds ·.kind) = kinds m.kind := by
  obtain ⟨s, h⟩ := h
  rw [h.symbol, Option.any_some, h.kind]

section

variable {R : String → Member → Prop} {ms : List Member}
  (hR : ∀ short m, R short m → ∃ s, site.Presents name short s m)
include hR

theorem forall₂_shownOf (kinds : Kind → Bool) (h : List.Forall₂ R (site.shown name) ms) :
    List.Forall₂ R (site.shownOf name kinds) (ms.filter (kinds ·.kind)) := by
  apply List.rel_filter _ h
  intro short m hr
  exact (any_kind_eq (hR short m hr)).congr_left

theorem map_shortName_eq {shorts : List String} (h : List.Forall₂ R shorts ms) :
    ms.map Member.shortName = shorts := by
  have heq : List.Forall₂ Eq shorts (ms.map Member.shortName) := by
    apply List.forall₂_map_right_iff.mpr
    apply h.imp
    intro short m hr
    obtain ⟨s, hs⟩ := hR short m hr
    exact hs.shortName.symm
  rw [List.forall₂_eq_eq_eq] at heq
  exact heq.symm

end

/-- Whether a class page files the children that are shown by their kinds. -/
structure FilesByKind (site : Site) (name : String) (ms : ClassMembers) : Prop where
  methods : List.Forall₂ (site.IsClassEntry name) (site.shownOf name (· == .function)) ms.methods
  properties :
    List.Forall₂ (site.IsClassEntry name) (site.shownOf name (· == .property)) ms.properties
  classes : List.Forall₂ (site.IsClassEntry name) (site.shownOf name (· == .cls)) ms.classes
  others : List.Forall₂ (site.IsClassEntry name)
    (site.shownOf name fun kind => kind == .module || kind == .other) ms.others
  complete : ((ms.methods ++ ms.properties ++ ms.classes ++ ms.others).map Member.shortName).Perm
    (site.shown name)

theorem filesByKind_ofList {ms : List Member}
    (h : List.Forall₂ (site.IsClassEntry name) (site.shown name) ms) :
    site.FilesByKind name (.ofList ms) where
  methods := forall₂_shownOf (fun _ _ he => he.presents) _ h
  properties := forall₂_shownOf (fun _ _ he => he.presents) _ h
  classes := forall₂_shownOf (fun _ _ he => he.presents) _ h
  others := forall₂_shownOf (fun _ _ he => he.presents) _ h
  complete := by
    rw [← map_shortName_eq (fun _ _ he => he.presents) h]
    exact (ClassMembers.perm_ofList ms).map Member.shortName

section

variable {body : PageBody}

theorem files_body_module (hk : s.kind = .module)
    (h : (site.body name (Name.rootPath name) s given).result = .ok body) :
    ∃ ms, body = .module ms ∧ List.Forall₂ (site.IsModuleEntry name) (site.shown name) ms := by
  rw [body_module hk] at h
  obtain ⟨ms, hms, rfl⟩ := map_eq_ok_iff.mp h
  exact ⟨ms, rfl, forall₂_isModuleEntry hms⟩

theorem files_body_cls (hk : s.kind = .cls)
    (h : (site.body name (Name.rootPath name) s given).result = .ok body) :
    ∃ ms, body = .cls ms ∧ site.FilesByKind name ms := by
  rw [body_cls hk] at h
  obtain ⟨ms, hms, rfl⟩ := map_eq_ok_iff.mp h
  exact ⟨.ofList ms, rfl, filesByKind_ofList (forall₂_isClassEntry hms)⟩

theorem warnings_body {root : String} (hk : s.kind = .module ∨ s.kind = .cls)
    (h : (site.body name root s given).result = .ok body) :
    (site.body name root s given).warnings =
      ((site.listed name).filter (¬ site.IsShown name ·)).map (site.omission name) := by
  rcases hk with hk | hk
  · rw [body_module hk] at h
    obtain ⟨ms, hms, -⟩ := map_eq_ok_iff.mp h
    rw [Site.body, hk]
    exact warnings_members hms
  · rw [body_cls hk] at h
    obtain ⟨ms, hms, -⟩ := map_eq_ok_iff.mp h
    rw [Site.body, hk]
    exact warnings_members hms

theorem kind_of_body (h : (site.body name root s given).result = .ok body)
    (hb : body.kind ≠ .function) : s.kind = .module ∨ s.kind = .cls := by
  cases hk : s.kind with
  | module => exact .inl rfl
  | cls => exact .inr rfl
  | function =>
    rw [body_function (.inl hk)] at h
    obtain ⟨_, -, rfl⟩ := map_eq_ok_iff.mp h
    exact absurd rfl hb
  | property =>
    rw [body_function (.inr hk)] at h
    obtain ⟨_, -, rfl⟩ := map_eq_ok_iff.mp h
    exact absurd rfl hb
  | other =>
    rw [body_other hk] at h
    cases h

end

theorem warnings_page {page : Page} (h : (site.page given s).result = .ok page) :
    (site.page given s).warnings = (site.body (site.resolver.canonical given)
      (Name.rootPath (site.resolver.canonical given)) s given).warnings := by
  obtain ⟨doc, body, hd, hb, -⟩ := page_eq_ok_iff.mp h
  have hdoc : (Report.ofExcept (site.docstring s
      (Name.rootPath (site.resolver.canonical given)))).result = .ok doc := hd
  rw [Site.page, Report.warnings_bind hdoc, Report.warnings_bind hb]
  exact List.append_nil _

/-- A page shows its children in tree order, with one warning for each that is not shown. -/
theorem page_files_children (site : Site) {given : String} {s : Symbol} {page : Page}
    (h : (site.page given s).result = .ok page) :
    page.fullName = site.resolver.canonical given ∧
    (s.kind = .module → ∃ ms, page.body = .module ms ∧
      List.Forall₂ (site.IsModuleEntry page.fullName) (site.shown page.fullName) ms) ∧
    (s.kind = .cls → ∃ ms, page.body = .cls ms ∧ site.FilesByKind page.fullName ms) ∧
    (page.body.kind ≠ .function → s.kind = .module ∨ s.kind = .cls) ∧
    (s.kind = .module ∨ s.kind = .cls → (site.page given s).warnings =
      ((site.listed page.fullName).filter (¬ site.IsShown page.fullName ·)).map
        (site.omission page.fullName)) := by
  have hwarnings := warnings_page h
  obtain ⟨doc, body, -, hb, rfl⟩ := page_eq_ok_iff.mp h
  refine ⟨rfl, fun hk => files_body_module hk hb, fun hk => files_body_cls hk hb,
    fun hk => kind_of_body hb hk, fun hk => ?_⟩
  rw [hwarnings]
  exact warnings_body hk hb

def mixedClass : Site where
  catalog :=
    let symbol (kind : Kind) : Symbol := ⟨kind, none, none, none⟩
    { symbols := .ofList [("m.C", symbol .cls), ("m.C.f", ⟨.function, some "@\x7bC.p\x7d", none, none⟩),
        ("m.C.p", symbol .property), ("m.C.D", symbol .cls), ("m.C.M", symbol .module),
        ("m.C.LIMIT", symbol .other)]
      aliases := .ofList [("C", "m.C")]
      tree := .ofList [("m.C", ["LIMIT", "f", "_x", "p", "D", "gone", "M", "f"])]
      documents := .empty
      guides := .empty
      moduleNames := [] }
  options := { hidden := ["_x"] }
  direct := Aliases.misplaced?_eq_none_iff.mp (by decide +kernel)

theorem page_files_children_mixedClass : ∃ page ms,
    (mixedClass.page "C" ⟨.cls, none, none, none⟩).result = .ok page ∧ page.fullName = "m.C" ∧
      page.body = .cls ms ∧ ms.methods.map Member.shortName = ["f", "f"] ∧
      ms.properties.map Member.shortName = ["p"] ∧ ms.classes.map Member.shortName = ["D"] ∧
      ms.others.map Member.shortName = ["LIMIT", "M"] ∧
      (mixedClass.page "C" ⟨.cls, none, none, none⟩).warnings =
        [.hidden "m.C._x", .notIndexed "m.C.gone"] := by
  have hbuilt : ∃ page, (mixedClass.page "C" ⟨.cls, none, none, none⟩).result = .ok page := by
    have hsome : (mixedClass.page "C" ⟨.cls, none, none, none⟩).result.isOk = true := by
      decide +kernel
    cases hr : (mixedClass.page "C" ⟨.cls, none, none, none⟩).result with
    | error e => simp [hr, Except.isOk, Except.toBool] at hsome
    | ok page => exact ⟨page, rfl⟩
  obtain ⟨page, hp⟩ := hbuilt
  obtain ⟨hname, -, hcls, -, hwarnings⟩ := page_files_children mixedClass hp
  obtain ⟨ms, hbody, hfiles⟩ := hcls rfl
  have hwarnings := hwarnings (.inr rfl)
  have hcanonical : mixedClass.resolver.canonical "C" = "m.C" := by decide +kernel
  rw [hname, hcanonical] at hfiles hwarnings
  have hshort {shorts : List String} {ms : List Member}
      (h : List.Forall₂ (mixedClass.IsClassEntry "m.C") shorts ms) :
      ms.map Member.shortName = shorts := map_shortName_eq (fun _ _ he => he.presents) h
  refine ⟨page, ms, hp, hname.trans hcanonical, hbody, ?_, ?_, ?_, ?_, ?_⟩
  · exact (hshort hfiles.methods).trans (by decide +kernel)
  · exact (hshort hfiles.properties).trans (by decide +kernel)
  · exact (hshort hfiles.classes).trans (by decide +kernel)
  · exact (hshort hfiles.others).trans (by decide +kernel)
  · exact hwarnings.trans (by decide +kernel)

end Site

end RefDoc
