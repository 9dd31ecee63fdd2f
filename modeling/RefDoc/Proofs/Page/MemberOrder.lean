import Mathlib.Data.List.Pairwise
import RefDoc.Page.Markdown
import RefDoc.Proofs.Text.Order

namespace RefDoc

namespace Member

variable {m m' : Member} {members : List Member}

/-- Whether members stand by ascending short names, those of one name in the order given. -/
structure Arranges (listed members : List Member) : Prop where
  perm : listed.Perm members
  ascending : listed.Pairwise fun m m' => Text.le m.shortName m'.shortName = true
  stable : ∀ name, listed.filter (·.shortName == name) = members.filter (·.shortName == name)

theorem arranges_sort (members : List Member) : Arranges (sort members) members where
  perm := Text.sortOn_perm shortName members
  ascending := Text.pairwise_sortOn shortName members
  stable := Text.filter_sortOn shortName members

def linkRest (m : Member) : String := "`](" ++ m.url?.getD "" ++ ")\n\n"

theorem le_classLink (m m' : Member) : Text.le m.classLink m'.classLink =
    Text.le (m.shortName ++ m.linkRest) (m'.shortName ++ m'.linkRest) := by
  have hlink (m : Member) : m.classLink = "[`class " ++ (m.shortName ++ m.linkRest) := by
    simp only [classLink, linkRest, String.append_assoc]
  rw [hlink, hlink, Text.le_append]

/-- Whether the links of some classes keep the order of their names. -/
def LinksKeepOrder (classes : List Member) : Prop :=
  ∀ m ∈ classes, ∀ m' ∈ classes, ∀ more, more ≠ "" → m'.shortName = m.shortName ++ more →
    Text.le m.linkRest (more ++ m'.linkRest) = true

def LinksByName (links : List String) (classes : List Member) : Prop :=
  ∃ listed : List Member, listed.Perm classes ∧
    listed.Pairwise (fun m m' => Text.le m.shortName m'.shortName = true) ∧
    links = listed.map classLink

theorem le_classLink_iff_of_append {more : String} (h : m'.shortName = m.shortName ++ more) :
    Text.le m.classLink m'.classLink = true ↔
      Text.le m.linkRest (more ++ m'.linkRest) = true := by
  rw [le_classLink, h, String.append_assoc, Text.le_append]

theorem LinksKeepOrder.le_classLink {classes : List Member} (h : LinksKeepOrder classes)
    (hm : m ∈ classes) (hm' : m' ∈ classes) (hle : Text.le m.shortName m'.shortName = true)
    (hne : m.shortName ≠ m'.shortName) : Text.le m.classLink m'.classLink = true := by
  obtain ⟨more, hmore⟩ | hends := Text.le_cases hle
  · apply (le_classLink_iff_of_append hmore).mpr
    apply h m hm m' hm' more _ hmore
    rintro rfl
    exact hne (by rw [hmore, String.append_empty])
  · rw [Member.le_classLink]
    exact hends _ _

theorem rel_or_rel_of_pairwise {R : Member → Member → Prop} (h : members.Pairwise R)
    (hm : m ∈ members) (hm' : m' ∈ members) (hne : m ≠ m') : R m m' ∨ R m' m := by
  have hsymm : Std.Symm fun m m' => R m m' ∨ R m' m := ⟨fun _ _ => Or.symm⟩
  have hor : members.Pairwise fun m m' => R m m' ∨ R m' m := h.imp .inl
  exact hor.forall hm hm' hne

theorem linksKeepOrder_of_linksByName {classes : List Member}
    (h : LinksByName (Text.sort (classes.map classLink)) classes) : LinksKeepOrder classes := by
  obtain ⟨listed, hperm, hnames, hlinks⟩ := h
  have hsorted : (listed.map classLink).Pairwise fun s t => Text.le s t = true :=
    hlinks ▸ Text.pairwise_sortOn _ _
  have hboth := hnames.and (List.pairwise_map.mp hsorted)
  intro m hm m' hm' more hmore happ
  have hname : m.shortName ≠ m'.shortName := by
    intro heq
    rw [happ] at heq
    exact hmore (String.append_eq_left_iff.mp heq.symm)
  have hle : Text.le m.shortName m'.shortName = true := by
    have hnil := Text.le_append m.shortName "" more
    rw [String.append_empty, ← happ] at hnil
    exact hnil.trans rfl
  obtain ⟨-, hlink⟩ | ⟨hle', -⟩ := rel_or_rel_of_pairwise hboth (hperm.mem_iff.mpr hm)
    (hperm.mem_iff.mpr hm') (fun heq => hname (congrArg shortName heq))
  · exact (le_classLink_iff_of_append happ).mp hlink
  · exact absurd (Text.le_antisymm hle hle') hname

theorem LinksKeepOrder.linksByName {classes : List Member} (h : LinksKeepOrder classes) :
    LinksByName (Text.sort (classes.map classLink)) classes := by
  -- Different names may have one link, so the links are sorted first and the names then.
  have hperm : (sort (Text.sortOn classLink classes)).Perm classes :=
    (Text.sortOn_perm _ _).trans (Text.sortOn_perm _ _)
  have hnames := Text.pairwise_sortOn shortName (Text.sortOn classLink classes)
  have hties : (sort (Text.sortOn classLink classes)).Pairwise fun m m' =>
      m.shortName = m'.shortName → Text.le m.classLink m'.classLink = true :=
    Text.pairwise_sortOn_of_pairwise (Text.pairwise_sortOn classLink classes)
  have hlinks : ((sort (Text.sortOn classLink classes)).map classLink).Pairwise
      fun s t => Text.le s t = true := by
    apply List.pairwise_map.mpr
    apply (hnames.and hties).imp_of_mem
    rintro m m' hm hm' ⟨hle, htie⟩
    by_cases hname : m.shortName = m'.shortName
    · exact htie hname
    · exact h.le_classLink (hperm.mem_iff.mp hm) (hperm.mem_iff.mp hm') hle hname
  refine ⟨_, hperm, hnames, ?_⟩
  apply List.Perm.eq_of_pairwise _ (Text.pairwise_sortOn _ _) hlinks
  · exact (Text.sort_perm _).trans (hperm.map classLink).symm
  · intro s t _ _ hst hts
    exact Text.le_antisymm hst hts

theorem linksByName_sort_iff (classes : List Member) :
    LinksByName (Text.sort (classes.map classLink)) classes ↔ LinksKeepOrder classes :=
  ⟨linksKeepOrder_of_linksByName, LinksKeepOrder.linksByName⟩

/-- The rest of a link starts with a backtick, so longer names are told apart there. -/
theorem linksKeepOrder_iff {classes : List Member}
    (h : ∀ m ∈ classes, '\x60' ∉ m.shortName.toList) :
    LinksKeepOrder classes ↔ ∀ m ∈ classes, ∀ m' ∈ classes, ∀ c more,
      m'.shortName = m.shortName ++ String.ofList (c :: more) → '\x60' < c := by
  have hle {m m' : Member} {c : Char} {more : List Char} (hm' : m' ∈ classes)
      (happ : m'.shortName = m.shortName ++ String.ofList (c :: more)) :
      Text.le m.linkRest (String.ofList (c :: more) ++ m'.linkRest) = true ↔ '\x60' < c := by
    have hne : '\x60' ≠ c := by
      rintro rfl
      apply h m' hm'
      simp [happ]
    -- Behind the name they share, one link goes on with its closing mark and the other with `c`.
    have hrest : m.linkRest =
        String.ofList ('\x60' :: ("](" ++ m.url?.getD "" ++ ")\n\n").toList) := by
      rw [← String.toList_inj]
      simp [linkRest]
    have hmore : String.ofList (c :: more) ++ m'.linkRest =
        String.ofList (c :: (more ++ m'.linkRest.toList)) := by
      rw [← String.toList_inj]
      simp
    rw [hrest, hmore, Text.le_ofList_cons_iff (by decide) hne]
  constructor
  · intro hk m hm m' hm' c more happ
    exact (hle hm' happ).mp (hk m hm m' hm' _ (by simp) happ)
  · intro hk m hm m' hm' more hmore happ
    obtain ⟨c, cs, hcs⟩ := List.exists_cons_of_ne_nil (mt String.toList_eq_nil_iff.mp hmore)
    obtain rfl : more = String.ofList (c :: cs) := by rw [← hcs, String.ofList_toList]
    exact (hle hm' happ).mpr (hk m hm m' hm' c cs happ)

end Member

namespace ClassMembers

variable {title ending : String} {entries : List String}

inductive IsSection (title ending : String) : List String → String → Prop
  | leftOut : IsSection title ending [] ""
  | shown {entries : List String} (hne : entries ≠ []) :
    IsSection title ending entries ("## " ++ title ++ String.join entries ++ ending)

theorem isSection_sectionMarkdown :
    IsSection title ending entries (sectionMarkdown title entries ending) := by
  cases entries with
  | nil => exact .leftOut
  | cons entry entries => exact .shown (List.cons_ne_nil _ _)

end ClassMembers

open Member ClassMembers

/-- A class page shows the members of each kind by name, but child classes by their links. -/
theorem markdown_lists_members (page : Page) {ms : ClassMembers} (h : page.body = .cls ms) :
    ∃ classes properties methods others,
      page.markdown = page.head ++ page.guides ++ page.doc.markdown ++ "\n\n" ++
        (classes ++ properties ++ methods ++ others) ∧
      (∃ listed, Arranges listed ms.properties ∧
        IsSection "Properties\n\n" "\n\n" (listed.map (·.entry "")) properties) ∧
      (∃ listed, Arranges listed ms.methods ∧ IsSection "Methods\n\n" "\n\n"
        (listed.map fun m => m.entry (m.signature?.getD "")) methods) ∧
      (∃ listed, Arranges listed ms.others ∧
        IsSection "Class Members\n\n" "" (listed.map (·.heading "")) others) ∧
      ∃ links, IsSection "Child Classes\n" "" links classes ∧
        links.Perm (ms.classes.map Member.classLink) ∧
        links.Pairwise (fun s t => Text.le s t = true) ∧
        (LinksByName links ms.classes ↔ LinksKeepOrder ms.classes) ∧
        ((∀ m ∈ ms.classes, '\x60' ∉ m.shortName.toList) →
          (LinksByName links ms.classes ↔ ∀ m ∈ ms.classes, ∀ m' ∈ ms.classes, ∀ c more,
            m'.shortName = m.shortName ++ String.ofList (c :: more) → '\x60' < c)) := by
  refine ⟨_, _, _, _, ?_, ⟨_, arranges_sort _, isSection_sectionMarkdown⟩,
    ⟨_, arranges_sort _, isSection_sectionMarkdown⟩,
    ⟨_, arranges_sort _, isSection_sectionMarkdown⟩,
    _, isSection_sectionMarkdown, Text.sort_perm _, Text.pairwise_sortOn _ _, ?_, ?_⟩
  · exact Page.markdown_cls h
  · exact linksByName_sort_iff ms.classes
  · intro hn
    rw [linksByName_sort_iff, linksKeepOrder_iff hn]

def bareMember (short : String) (kind : Kind) (signature? : Option String) : Member where
  shortName := short
  fullName := "m.C." ++ short
  url? := some ("./" ++ short ++ ".md")
  kind
  doc := ⟨"", "", [], .empty⟩
  signature?
  linked := kind == .cls

def barePage (ms : ClassMembers) : Page := ⟨"m.C", [], none, "", ⟨"", "", [], .empty⟩, .cls ms⟩

def overloaded : ClassMembers where
  methods := [bareMember "f" .function (some "(x)"), bareMember "e" .function (some "()"),
    bareMember "f" .function (some "(y)")]
  properties := []
  classes := [bareMember "Graphs" .cls none, bareMember "Graph" .cls none]
  others := []

theorem markdown_lists_members_overloaded :
    ∃ classes properties methods others,
      (barePage overloaded).markdown =
        "# m.C\n\n\n\n" ++ (classes ++ properties ++ methods ++ others) ∧
      (∃ listed, Arranges listed overloaded.methods ∧
        listed.filter (·.shortName == "f") =
          [bareMember "f" .function (some "(x)"), bareMember "f" .function (some "(y)")]) ∧
      ∃ links, IsSection "Child Classes\n" "" links classes ∧
        LinksByName links overloaded.classes := by
  obtain ⟨classes, properties, methods, others, hmarkdown, -, hmethods, -, links, hlinks, -, -, -,
    hnames⟩ := markdown_lists_members (barePage overloaded) rfl
  obtain ⟨listed, hlisted, -⟩ := hmethods
  refine ⟨classes, properties, methods, others, hmarkdown.trans ?_, ⟨listed, hlisted, ?_⟩, links,
    hlinks, ?_⟩
  · congr 1
    decide +kernel
  · exact (hlisted.stable "f").trans (by decide +kernel)
  · apply (hnames (by decide +kernel)).mpr
    intro m hm m' hm' c more happ
    obtain rfl : c = 's' := by
      simp only [overloaded, List.mem_cons, List.not_mem_nil, or_false] at hm hm'
      rcases hm with rfl | rfl <;> rcases hm' with rfl | rfl <;>
        simp [← String.toList_inj, bareMember] at happ
      exact happ.1.symm
    decide

def capitalized : ClassMembers where
  methods := []
  properties := []
  classes := [bareMember "FooBar" .cls none, bareMember "Foo" .cls none]
  others := []

theorem markdown_capitalized : (barePage capitalized).markdown =
    "# m.C\n\n\n\n## Child Classes\n[`class FooBar`](./FooBar.md)\n\n[`class Foo`](./Foo.md)\n\n" := by
  have hlinks : Text.sort (capitalized.classes.map classLink) =
      capitalized.classes.map classLink := List.mergeSort_of_pairwise (by decide +kernel)
  have hmembers : capitalized.markdown =
      "## Child Classes\n" ++ String.join (capitalized.classes.map classLink) := by
    rw [ClassMembers.markdown, hlinks]
    decide +kernel
  change (barePage capitalized).head ++ (barePage capitalized).guides ++
    (barePage capitalized).doc.markdown ++ "\n\n" ++ capitalized.markdown = _
  rw [hmembers]
  decide +kernel

/-- The child classes do not stand by their names. -/
theorem markdown_not_by_name :
    ¬ ∃ listed : List Member, listed.Perm capitalized.classes ∧
      listed.Pairwise (fun m m' => Text.le m.shortName m'.shortName = true) ∧
      (barePage capitalized).markdown =
        "# m.C\n\n\n\n## Child Classes\n" ++ String.join (listed.map classLink) := by
  rintro ⟨listed, hperm, hnames, hmarkdown⟩
  have hlisted : listed = [bareMember "Foo" .cls none, bareMember "FooBar" .cls none] := by
    apply List.Perm.eq_of_pairwise _ hnames (by decide +kernel)
    · exact hperm.trans (.swap _ _ _)
    · intro m m' hm hm' hle hle'
      have hnodup : (capitalized.classes.map shortName).Nodup := by decide
      have hm' : m' ∈ capitalized.classes := (List.Perm.swap _ _ _).mem_iff.mp hm'
      exact List.inj_on_of_nodup_map hnodup (hperm.mem_iff.mp hm) hm' (Text.le_antisymm hle hle')
  rw [markdown_capitalized, hlisted] at hmarkdown
  exact absurd hmarkdown (by decide +kernel)

end RefDoc
