import RefDoc.Page.Build
import RefDoc.Proofs.Reference.Replace
import RefDoc.Table.Lemmas

namespace RefDoc

namespace Report

variable {α : Type u}

@[simp] theorem result_pure (a : α) : (pure a : Report α).result = .ok a := rfl

@[simp] theorem result_ofExcept (x : Except BuildError α) : (ofExcept x).result = x := rfl

theorem result_bind {α β : Type u} (r : Report α) (f : α → Report β) :
    (r >>= f).result = r.result >>= fun a => (f a).result := by
  change (r.bind f).result = _
  rw [bind]
  split
  · next h => rw [h]; rfl
  · next h => rw [h]; rfl

theorem warnings_bind {α β : Type u} {r : Report α} {f : α → Report β} {a : α}
    (h : r.result = .ok a) : (r >>= f).warnings = r.warnings ++ (f a).warnings := by
  change (r.bind f).warnings = _
  rw [bind, h]

end Report

namespace Site

variable {site : Site} {name root short given : String} {s : Symbol} {c : Child} {m : Member}

def visible (children : List (Except Warning Child)) : List Child :=
  children.filterMap Except.toOption

theorem mem_visible {children : List (Except Warning Child)} :
    c ∈ visible children ↔ .ok c ∈ children := by
  rw [visible, List.mem_filterMap]
  constructor
  · intro h
    obtain ⟨e, he, hc⟩ := h
    cases e with
    | error w => cases hc
    | ok d =>
      cases hc
      exact he
  · intro h
    exact ⟨_, h, rfl⟩

theorem result_members (make : Child → Except BuildError Member)
    (children : List (Except Warning Child)) :
    (members make children).result = (visible children).mapM make := by
  induction children with
  | nil => rfl
  | cons e rest ih =>
    cases e with
    | error w => exact ih
    | ok c =>
      change (members make (.ok c :: rest)).result = (c :: visible rest).mapM make
      simp only [members, List.mapM_cons, Report.result_bind, Report.result_ofExcept, ih,
        Report.result_pure]
      rfl

theorem exists_child_of_mem {make : Child → Except BuildError Member}
    {children : List (Except Warning Child)} {ms : List Member}
    (h : (members make children).result = .ok ms) (hm : m ∈ ms) :
    ∃ c, .ok c ∈ children ∧ make c = .ok m := by
  rw [result_members, mapM_eq_ok_iff] at h
  obtain ⟨c, hc, hmake⟩ := exists_left_of_forall₂ h hm
  exact ⟨c, mem_visible.mp hc, hmake⟩

theorem exists_member_of_child {make : Child → Except BuildError Member}
    {children : List (Except Warning Child)} {ms : List Member}
    (h : (members make children).result = .ok ms) (hc : .ok c ∈ children) :
    ∃ m ∈ ms, make c = .ok m := by
  rw [result_members, mapM_eq_ok_iff] at h
  exact exists_right_of_forall₂ h (mem_visible.mpr hc)

theorem child_eq_ok_iff : site.child name short = .ok c ↔
    short ∉ site.options.hidden ∧ c.shortName = short ∧ c.fullName = Name.child name short ∧
      site.catalog.symbols.find? c.fullName = some c.symbol := by
  rw [child]
  split
  · next hh => simp [hh]
  · next hh =>
    split
    · next hs =>
      constructor
      · intro h
        cases h
      · rintro ⟨-, -, hn, hf⟩
        rw [hn, hs] at hf
        cases hf
    · next symbol hs =>
      constructor
      · intro h
        cases h
        exact ⟨hh, rfl, rfl, hs⟩
      · intro h
        obtain ⟨-, h₁, h₂, h₃⟩ := h
        obtain ⟨shortName, fullName, symbol'⟩ := c
        dsimp only at h₁ h₂ h₃
        subst h₁ h₂
        cases hs.symm.trans h₃
        rfl

theorem mem_children : .ok c ∈ site.children name ↔
    ∃ short ∈ (site.catalog.tree.find? name).getD [], site.child name short = .ok c := by
  rw [children, List.mem_map]

theorem docstring_eq_ok_iff {doc : Docstring} : site.docstring s root = .ok doc ↔
    ∃ text, site.resolver.replace s.rawDocstring root = .ok text ∧
      doc = Docstring.ofText text site.options.keywords := by
  rw [docstring, bind_eq_ok_iff]
  simp only [mapError_eq_ok_iff, pure, Except.pure, Except.ok.injEq, @eq_comm _ _ doc]

theorem docstring_of_none (h : s.docstring? = none) :
    site.docstring s root = .ok (Docstring.ofText "" site.options.keywords) := by
  have hr : site.resolver.replace "" root = .ok "" := by
    apply site.resolver.replace_eq_ok_iff.mpr
    refine ⟨[], ?_, rfl⟩
    exact Reference.fragments_nil ▸ .nil
  have hraw : s.rawDocstring = "" := by rw [Symbol.rawDocstring, h, Option.getD_none]
  exact docstring_eq_ok_iff.mpr ⟨"", hraw.symm ▸ hr, rfl⟩

theorem classMember_eq_ok_iff : site.classMember root c = .ok m ↔
    ∃ url doc signature?, site.memberUrl c.fullName root = .ok url ∧
      site.docstring c.symbol root = .ok doc ∧
      site.memberSignature c.symbol = .ok signature? ∧
      m = ⟨c.shortName, c.fullName, some url, c.symbol.kind, doc, signature?,
        c.symbol.kind == .cls⟩ := by
  simp only [classMember, bind_eq_ok_iff]
  constructor
  · rintro ⟨url, hu, doc, hd, signature?, hs, hm⟩
    exact ⟨url, doc, signature?, hu, hd, hs, (Except.ok.inj hm).symm⟩
  · rintro ⟨url, doc, signature?, hu, hd, hs, rfl⟩
    exact ⟨url, hu, doc, hd, signature?, hs, rfl⟩

theorem moduleMember_eq_ok_iff : site.moduleMember root c = .ok m ↔
    ∃ url? doc signature?, site.docstring c.symbol root = .ok doc ∧
      (if c.symbol.kind.mayHavePage = true then some <$> site.memberUrl c.fullName root
        else pure none) = .ok url? ∧
      site.memberSignature c.symbol = .ok signature? ∧
      m = ⟨c.shortName, c.fullName, url?, c.symbol.kind, doc, signature?,
        c.symbol.kind.mayHavePage⟩ := by
  have key (address : Except BuildError (Option String)) : (do
      let doc ← site.docstring c.symbol root
      let url? ← address
      let signature? ← site.memberSignature c.symbol
      return (⟨c.shortName, c.fullName, url?, c.symbol.kind, doc, signature?,
        c.symbol.kind.mayHavePage⟩ : Member)) = .ok m ↔
      ∃ url? doc signature?, site.docstring c.symbol root = .ok doc ∧ address = .ok url? ∧
        site.memberSignature c.symbol = .ok signature? ∧
        m = ⟨c.shortName, c.fullName, url?, c.symbol.kind, doc, signature?,
          c.symbol.kind.mayHavePage⟩ := by
    simp only [bind_eq_ok_iff]
    constructor
    · rintro ⟨doc, hd, url?, hu, signature?, hs, hm⟩
      exact ⟨url?, doc, signature?, hd, hu, hs, (Except.ok.inj hm).symm⟩
    · rintro ⟨url?, doc, signature?, hd, hu, hs, rfl⟩
      exact ⟨doc, hd, url?, hu, signature?, hs, rfl⟩
  rw [← key, moduleMember]
  cases c.symbol.kind.mayHavePage with
  | true => rfl
  | false => rfl

theorem memberUrl_eq_ok_iff {address : String} :
    site.memberUrl name root = .ok address ↔ site.resolver.url name root = .ok address :=
  mapError_eq_ok_iff

theorem body_cls (h : s.kind = .cls) :
    (site.body name root s given).result = (members (site.classMember root)
      (site.children name)).result.map fun ms => PageBody.cls (ClassMembers.ofList ms) := by
  rw [body, h]
  rfl

theorem body_module (h : s.kind = .module) :
    (site.body name root s given).result = (members (site.moduleMember root)
      (site.children name)).result.map PageBody.module := by
  rw [body, h]
  rfl

theorem body_function (h : s.kind = .function ∨ s.kind = .property) :
    (site.body name root s given).result = (site.signature s).map PageBody.function := by
  rw [body]
  rcases h with h | h
  · rw [h]
    rfl
  · rw [h]
    rfl

theorem body_other (h : s.kind = .other) :
    (site.body name root s given).result = .error (.unsupported given .other) := by
  rw [body, h]
  rfl

/-- A page is built from the docstring and the body, both seen from where the page stands. -/
theorem page_eq_ok_iff {page : Page} : (site.page name s).result = .ok page ↔
    ∃ doc body, site.docstring s (Name.rootPath (site.resolver.canonical name)) = .ok doc ∧
      (site.body (site.resolver.canonical name) (Name.rootPath (site.resolver.canonical name)) s
        name).result = .ok body ∧
      page =
        { fullName := site.resolver.canonical name
          aliases := site.otherNames (site.resolver.canonical name)
          definedIn? := s.definedIn?
          guides := Guide.line
            (site.resolver.canonical name :: site.otherNames (site.resolver.canonical name))
            site.catalog.guides (Name.rootPath (site.resolver.canonical name))
          doc, body } := by
  simp only [Site.page, Report.result_bind, bind_eq_ok_iff, Report.result_ofExcept,
    Report.result_pure]
  constructor
  · rintro ⟨doc, hd, body, hb, hp⟩
    exact ⟨doc, body, hd, hb, (Except.ok.inj hp).symm⟩
  · rintro ⟨doc, body, hd, hb, rfl⟩
    exact ⟨doc, hd, body, hb, rfl⟩

end Site

end RefDoc
