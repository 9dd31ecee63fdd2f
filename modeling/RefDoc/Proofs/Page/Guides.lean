import Mathlib.Data.Set.Subsingleton
import RefDoc.Proofs.Site.Canonical

namespace RefDoc

namespace Guide

def ofName (guides : Table (List Guide)) (name : String) : List Guide :=
  (guides.find? name).getD []

/-- The links of all guides of some names. -/
def linkSet (names : List String) (guides : Table (List Guide)) (root : String) : Set String :=
  {link | ∃ name ∈ names, ∃ g ∈ ofName guides name,
    let heading := g.sectionTitle?.getD ""
    let tag := g.sectionTag?.getD ""
    link = "[" ++ g.title ++ (if heading = "" then "" else " > " ++ heading) ++ "](" ++
      Url.document root g.url ++ (if tag = "" then "" else "#" ++ tag) ++ ")"}

/-- What a line says of a set of links; only several links are called guides. -/
inductive Announces (all : Set String) : String → Prop
  | none (h : all = ∅) : Announces all ""
  | one {link : String} (h : all = {link}) : Announces all ("See the guide: " ++ link ++ "\n\n")
  | several {shown : List String} (h : all.Nontrivial) (ha : Text.Ascending shown)
    (hm : ∀ link, link ∈ shown ↔ link ∈ all) :
    Announces all ("See the guides: " ++ String.intercalate ", " shown ++ "\n\n")

variable {names names' : List String} {guides guides' : Table (List Guide)} {root : String}
  {all : Set String}

theorem Announces.unique {line line' : String} (h : Announces all line)
    (h' : Announces all line') : line = line' := by
  cases h with
  | none h =>
    cases h' with
    | none => rfl
    | one h' => exact absurd (h.symm.trans h').symm (Set.singleton_ne_empty _)
    | several h' => exact absurd h h'.nonempty.ne_empty
  | one h =>
    cases h' with
    | none h' => exact absurd (h.symm.trans h') (Set.singleton_ne_empty _)
    | one h' => rw [Set.singleton_injective (h.symm.trans h')]
    | several h' => exact absurd h h'.ne_singleton
  | several h ha hm =>
    cases h' with
    | none h' => exact absurd h' h.nonempty.ne_empty
    | one h' => exact absurd h' h.ne_singleton
    | several h' ha' hm' =>
      rw [ha.eq_of_mem_iff ha' fun link => (hm link).trans (hm' link).symm]

theorem link_eq_spelled (g : Guide) (root : String) :
    g.link root = "[" ++ g.title ++
      (if g.sectionTitle?.getD "" = "" then "" else " > " ++ g.sectionTitle?.getD "") ++ "](" ++
      Url.document root g.url ++
      (if g.sectionTag?.getD "" = "" then "" else "#" ++ g.sectionTag?.getD "") ++ ")" := by
  have htext : g.text = g.title ++
      if g.sectionTitle?.getD "" = "" then "" else " > " ++ g.sectionTitle?.getD "" := by
    rw [text]
    cases g.sectionTitle? with
    | none => exact String.append_empty.symm
    | some heading => by_cases hh : heading = "" <;> simp [hh, String.append_assoc]
  have hanchor : g.anchor =
      if g.sectionTag?.getD "" = "" then "" else "#" ++ g.sectionTag?.getD "" := by
    rw [anchor]
    cases g.sectionTag? with
    | none => rfl
    | some tag => rfl
  rw [link, htext, hanchor]
  simp only [String.append_assoc]

theorem mem_links_iff {link : String} :
    link ∈ links names guides root ↔ link ∈ linkSet names guides root := by
  rw [links, List.mem_flatMap, linkSet, Set.mem_ofPred_eq]
  apply exists_congr
  intro name
  apply and_congr_right
  intro _
  rw [List.mem_map]
  apply exists_congr
  intro g
  rw [link_eq_spelled, eq_comm]
  rfl

theorem announces_line (names : List String) (guides : Table (List Guide)) (root : String) :
    Announces (linkSet names guides root) (line names guides root) := by
  have ha : Text.Ascending (Text.sort (links names guides root).eraseDups) :=
    Text.ascending_sort (Text.nodup_eraseDups _)
  have hm (link : String) : link ∈ Text.sort (links names guides root).eraseDups ↔
      link ∈ linkSet names guides root := by
    rw [Text.mem_sort, List.mem_eraseDups, mem_links_iff]
  rw [line]
  generalize Text.sort (links names guides root).eraseDups = shown at ha hm
  cases shown with
  | nil =>
    apply Announces.none
    exact Set.eq_empty_of_forall_notMem fun link hl => List.not_mem_nil ((hm link).mpr hl)
  | cons first rest =>
    cases rest with
    | nil =>
      apply Announces.one
      exact Set.ext fun link => (hm link).symm.trans List.mem_singleton
    | cons second rest =>
      apply Announces.several _ ha hm
      have hne : first ≠ second := ((List.pairwise_cons.mp ha).1 second List.mem_cons_self).2
      exact ⟨first, (hm first).mp (by simp), second, (hm second).mp (by simp), hne⟩

theorem line_eq_of_linkSet_eq {root' : String}
    (h : linkSet names guides root = linkSet names' guides' root') :
    line names guides root = line names' guides' root' := by
  have hline := announces_line names guides root
  rw [h] at hline
  exact hline.unique (announces_line names' guides' root')

theorem linkSet_eq_of_names
    (h : ∀ name, ofName guides name ≠ [] → (name ∈ names ↔ name ∈ names')) (root : String) :
    linkSet names guides root = linkSet names' guides root := by
  apply Set.ext
  intro link
  apply exists_congr
  intro name
  apply and_congr_left
  intro hg
  obtain ⟨g, hg, -⟩ := hg
  exact h name (List.ne_nil_of_mem hg)

theorem linkSet_eq_of_guides
    (h : ∀ name g, g ∈ ofName guides name ↔ g ∈ ofName guides' name) (names : List String)
    (root : String) : linkSet names guides root = linkSet names guides' root := by
  apply Set.ext
  intro link
  simp only [linkSet, h]

end Guide

namespace Site

open Guide

variable {site : Site} {name other : String} {s : Symbol} {page : Page}

theorem mem_names_iff :
    other ∈ site.resolver.canonical name :: site.otherNames (site.resolver.canonical name) ↔
      site.resolver.canonical other = site.resolver.canonical name := by
  rw [List.mem_cons, mem_otherNames_iff]
  constructor
  · intro h
    obtain rfl | h := h
    · exact canonical_canonical site name
    · exact canonical_of_find? h
  · intro h
    by_cases ha : other ∈ site.catalog.aliases
    · obtain ⟨target, ht⟩ := Table.mem_iff_exists.mp ha
      rw [← h, canonical_of_find? ht]
      exact .inr ht
    · rw [← h, canonical_eq_self ha]
      exact .inl rfl

/-- The links of all guides of the names that stand for the same symbol as a name. -/
def guideLinks (site : Site) (name : String) : Set String :=
  {link | ∃ other, site.resolver.canonical other = site.resolver.canonical name ∧
    link ∈ linkSet [other] site.catalog.guides (Name.rootPath (site.resolver.canonical name))}

theorem announces_guides (h : (site.page name s).result = .ok page) :
    Announces (site.guideLinks name) page.guides := by
  obtain ⟨doc, body, -, -, rfl⟩ := page_eq_ok_iff.mp h
  have hlinks : site.guideLinks name = linkSet
      (site.resolver.canonical name :: site.otherNames (site.resolver.canonical name))
      site.catalog.guides (Name.rootPath (site.resolver.canonical name)) := by
    apply Set.ext
    intro link
    apply exists_congr
    intro other
    rw [mem_names_iff]
    apply and_congr_right
    intro _
    simp [linkSet]
  rw [hlinks]
  exact announces_line _ _ _

theorem guideLinks_eq (h : site.resolver.canonical other = site.resolver.canonical name) :
    site.guideLinks other = site.guideLinks name := by
  rw [guideLinks, guideLinks, h]

end Site

/-- The line of guide links depends on the set of links only, and so it does on pages. -/
theorem guides_announced :
    (∀ names guides root,
      Guide.Announces (Guide.linkSet names guides root) (Guide.line names guides root)) ∧
    (∀ names names' guides guides' root root',
      Guide.linkSet names guides root = Guide.linkSet names' guides' root' →
      Guide.line names guides root = Guide.line names' guides' root') ∧
    (∀ names names' guides root,
      (∀ name, Guide.ofName guides name ≠ [] → (name ∈ names ↔ name ∈ names')) →
      Guide.line names guides root = Guide.line names' guides root) ∧
    (∀ names guides guides' root,
      (∀ name g, g ∈ Guide.ofName guides name ↔ g ∈ Guide.ofName guides' name) →
      Guide.line names guides root = Guide.line names guides' root) ∧
    ∀ (site : Site) name s page, (site.page name s).result = .ok page →
      Guide.Announces (site.guideLinks name) page.guides ∧
      ∀ other s' page', site.resolver.canonical other = site.resolver.canonical name →
        (site.page other s').result = .ok page' → page'.guides = page.guides := by
  refine ⟨Guide.announces_line, ?_, ?_, ?_, ?_⟩
  · intro names names' guides guides' root root' h
    exact Guide.line_eq_of_linkSet_eq h
  · intro names names' guides root h
    exact Guide.line_eq_of_linkSet_eq (Guide.linkSet_eq_of_names h root)
  · intro names guides guides' root h
    exact Guide.line_eq_of_linkSet_eq (Guide.linkSet_eq_of_guides h names root)
  · intro site name s page hp
    refine ⟨Site.announces_guides hp, ?_⟩
    intro other s' page' hc hp'
    have hother := Site.announces_guides hp'
    rw [Site.guideLinks_eq hc] at hother
    exact hother.unique (Site.announces_guides hp)

def guidedFunction : Site where
  catalog :=
    { symbols := .ofList
        [("m", ⟨.module, none, none, none⟩), ("m.f", ⟨.function, none, none, none⟩)]
      aliases := .ofList [("m.g", "m.f")]
      tree := .empty
      documents := .empty
      guides := .ofList [
        ("m.f", [⟨"More", "more/", some "Use", some "use"⟩, ⟨"Start", "start.md", none, none⟩]),
        ("m.g", [⟨"Start", "more/..//start.md", some "", none⟩])]
      moduleNames := [] }
  options := {}
  direct := Aliases.misplaced?_eq_none_iff.mp (by decide +kernel)

def reorderedGuides : Table (List Guide) :=
  .ofList [
    ("m.g", [⟨"Start", "more/..//start.md", some "", none⟩]),
    ("m.f", [⟨"Start", "start.md", none, none⟩, ⟨"More", "more/", some "Use", some "use"⟩,
      ⟨"Start", "start.md", none, none⟩])]

theorem guides_announced_throughAlias :
    Guide.line ["m.f", "m.g"] guidedFunction.catalog.guides "." =
        Guide.line ["m.g", "m", "m.f", "m.g"] guidedFunction.catalog.guides "." ∧
      Guide.line ["m.f", "m.g"] guidedFunction.catalog.guides "." =
        Guide.line ["m.f", "m.g"] reorderedGuides "." ∧
      ∃ page page', (guidedFunction.page "m.f" ⟨.function, none, none, none⟩).result = .ok page ∧
        (guidedFunction.page "m.g" ⟨.function, some "Another.", none, none⟩).result = .ok page' ∧
        page'.guides = page.guides ∧ page.guides =
          "See the guides: [More > Use](../../../more/#use), [Start](../../../start.md)\n\n" := by
  obtain ⟨-, -, hnames, hguides, hpage⟩ := guides_announced
  have hc : guidedFunction.resolver.canonical "m.f" = "m.f" := by decide +kernel
  have hother : guidedFunction.otherNames (guidedFunction.resolver.canonical "m.f") = ["m.g"] := by
    rw [Site.otherNames_canonical, hc]
    exact (congrArg Text.sort (by decide +kernel)).trans (List.mergeSort_singleton "m.g")
  have hlinks : (Guide.links ["m.f", "m.g"] guidedFunction.catalog.guides
      (Name.rootPath "m.f")).eraseDups =
        ["[More > Use](../../../more/#use)", "[Start](../../../start.md)"] := by
    decide +kernel
  have hline : Guide.line ["m.f", "m.g"] guidedFunction.catalog.guides (Name.rootPath "m.f") =
      "See the guides: [More > Use](../../../more/#use), [Start](../../../start.md)\n\n" := by
    have hsort := (congrArg Text.sort hlinks).trans (List.mergeSort_of_pairwise (by decide +kernel))
    rw [Guide.line, hsort]
    decide +kernel
  refine ⟨hnames _ _ _ _ ?_, hguides _ _ _ _ ?_, ?_⟩
  · intro name hne
    have hm : name ≠ "m" := by
      intro hn
      subst hn
      exact hne (by decide +kernel)
    simp only [List.mem_cons, List.not_mem_nil, or_false, hm, false_or]
    grind
  · intro name g
    change g ∈ (((Table.empty.insert "m.f" _).insert "m.g" _).find? name).getD [] ↔
      g ∈ (((Table.empty.insert "m.g" _).insert "m.f" _).find? name).getD []
    simp only [Table.find?_insert, Table.find?_empty]
    by_cases hg : name = "m.g"
    · simp [hg]
    · by_cases hf : name = "m.f"
      · simp only [if_neg hg, if_pos hf, Option.getD_some, List.mem_cons, List.not_mem_nil]
        grind
      · simp [hg, hf]
  · obtain ⟨page, hp⟩ : ∃ page,
        (guidedFunction.page "m.f" ⟨.function, none, none, none⟩).result = .ok page :=
      exists_eq_ok (by decide +kernel)
    obtain ⟨page', hp'⟩ : ∃ page',
        (guidedFunction.page "m.g" ⟨.function, some "Another.", none, none⟩).result = .ok page' :=
      exists_eq_ok (by decide +kernel)
    have hsame : guidedFunction.resolver.canonical "m.g" =
        guidedFunction.resolver.canonical "m.f" := by
      decide +kernel
    refine ⟨page, page', hp, hp', (hpage guidedFunction _ _ page hp).2 _ _ page' hsame hp', ?_⟩
    obtain ⟨doc, body, -, -, rfl⟩ := Site.page_eq_ok_iff.mp hp
    rw [hother, hc, hline]

end RefDoc
