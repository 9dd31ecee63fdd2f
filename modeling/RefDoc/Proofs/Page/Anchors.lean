import RefDoc.Page.Markdown
import RefDoc.Proofs.Page.Members
import RefDoc.Proofs.Site.Pages

namespace RefDoc

namespace Text

def Shows (text part : String) : Prop := part.toList <:+: text.toList

variable {text part : String}

theorem Shows.trans {inner : String} (h : Shows text part) (h' : Shows part inner) :
    Shows text inner := List.IsInfix.trans h' h

theorem shows_append (before part after : String) : Shows (before ++ part ++ after) part := by
  rw [Shows, String.toList_append, String.toList_append]
  exact List.infix_append before.toList part.toList after.toList

theorem Shows.append_left (h : Shows text part) (before : String) :
    Shows (before ++ text) part := by
  apply Shows.trans _ h
  simpa using shows_append before text ""

theorem Shows.append_right (h : Shows text part) (after : String) : Shows (text ++ after) part := by
  apply Shows.trans _ h
  simpa using shows_append "" text after

theorem shows_join {parts : List String} (h : part ∈ parts) : Shows (String.join parts) part := by
  rw [Shows, String.toList_join]
  exact List.infix_of_mem_flatten (List.mem_map_of_mem h)

end Text

open Text

namespace Member

variable (m : Member)

/-- The start of the heading to which the address of a member leads. -/
def anchor (short : String) : String := "<h3 id=\"" ++ short ++ "\">"

theorem shows_heading (suffix : String) : Shows (m.heading suffix) (anchor m.shortName) := by
  have h : m.heading suffix =
      "" ++ anchor m.shortName ++ ("<code>" ++ m.shortName ++ suffix ++ "</code></h3>\n\n") := by
    simp [heading, anchor, ← String.toList_inj]
  rw [h]
  exact shows_append _ _ _

theorem shows_entry (suffix : String) : Shows (m.entry suffix) (anchor m.shortName) :=
  ((m.shows_heading suffix).append_right _).append_right _

theorem shows_link_of_classLink {url : String} (h : m.url? = some url) :
    Shows m.classLink ("[`class " ++ m.shortName ++ "`](" ++ url ++ ")") := by
  have he : m.classLink = "" ++ ("[`class " ++ m.shortName ++ "`](" ++ url ++ ")") ++ "\n\n" := by
    simp [classLink, h, ← String.toList_inj]
  rw [he]
  exact shows_append _ _ _

theorem mem_sort {m : Member} {members : List Member} : m ∈ sort members ↔ m ∈ members :=
  (Text.sortOn_perm shortName members).mem_iff

end Member

namespace ClassMembers

variable {m : Member} {members : List Member} {entry : String} {entries : List String}

theorem shows_sectionMarkdown (title ending : String) (h : entry ∈ entries) :
    Shows (sectionMarkdown title entries ending) entry := by
  have hne : entries.isEmpty = false := List.isEmpty_eq_false_iff_exists_mem.mpr ⟨entry, h⟩
  rw [sectionMarkdown, hne]
  exact ((shows_join h).append_left _).append_right _

theorem shows_property {ms : ClassMembers} (h : m ∈ ms.properties) :
    Shows ms.markdown (m.entry "") := by
  have hs := List.mem_map_of_mem (f := (·.entry "")) (Member.mem_sort.mpr h)
  have hshows := shows_sectionMarkdown "Properties\n\n" "\n\n" hs
  exact ((hshows.append_left _).append_right _).append_right _

theorem shows_method {ms : ClassMembers} (h : m ∈ ms.methods) :
    Shows ms.markdown (m.entry (m.signature?.getD "")) := by
  have hs := List.mem_map_of_mem (f := fun m => m.entry (m.signature?.getD ""))
    (Member.mem_sort.mpr h)
  have hshows := shows_sectionMarkdown "Methods\n\n" "\n\n" hs
  exact (hshows.append_left _).append_right _

theorem shows_anchor_of_property (h : m ∈ members) (hk : m.kind = .property) :
    Shows (ofList members).markdown (Member.anchor m.shortName) := by
  have hp : m ∈ (ofList members).properties := List.mem_filter.mpr ⟨h, beq_iff_eq.mpr hk⟩
  exact (shows_property hp).trans (m.shows_entry "")

theorem shows_anchor_of_function (h : m ∈ members) (hk : m.kind = .function) :
    Shows (ofList members).markdown (Member.anchor m.shortName) := by
  have hp : m ∈ (ofList members).methods := List.mem_filter.mpr ⟨h, beq_iff_eq.mpr hk⟩
  exact (shows_method hp).trans (m.shows_entry _)

theorem shows_anchor_of_other (h : m ∈ members) (hk : m.kind = .module ∨ m.kind = .other) :
    Shows (ofList members).markdown (Member.anchor m.shortName) := by
  have hp : m ∈ (ofList members).others := List.mem_filter.mpr ⟨h, by simpa using hk⟩
  have hs := List.mem_map_of_mem (f := (·.heading "")) (Member.mem_sort.mpr hp)
  have hshows := (shows_sectionMarkdown "Class Members\n\n" "" hs).trans (m.shows_heading "")
  exact hshows.append_left _

theorem shows_anchor (h : m ∈ members) (hk : m.kind ≠ .cls) :
    Shows (ofList members).markdown (Member.anchor m.shortName) := by
  cases hm : m.kind with
  | cls => exact absurd hm hk
  | property => exact shows_anchor_of_property h hm
  | function => exact shows_anchor_of_function h hm
  | module => exact shows_anchor_of_other h (.inl hm)
  | other => exact shows_anchor_of_other h (.inr hm)

theorem shows_classLink (h : m ∈ members) (hk : m.kind = .cls) :
    Shows (ofList members).markdown m.classLink := by
  have hp : m ∈ (ofList members).classes := List.mem_filter.mpr ⟨h, by simp [hk]⟩
  have hs := Text.mem_sort.mpr (List.mem_map_of_mem (f := Member.classLink) hp)
  have hshows := shows_sectionMarkdown "Child Classes\n" "" hs
  exact ((hshows.append_right _).append_right _).append_right _

end ClassMembers

theorem Page.shows_markdown {page : Page} {members : ClassMembers} {part : String}
    (hb : page.body = .cls members) (h : Shows members.markdown part) :
    Shows page.markdown part := by
  rw [Page.markdown_cls hb]
  exact h.append_left _

namespace Site

variable {site : Site} {name short root : String} {s member : Symbol}

theorem isClassMember_append (hs : site.catalog.symbols.find? name = some s) (hk : s.kind = .cls)
    (hdot : '.' ∉ short.toList) : site.catalog.isClassMember (name ++ "." ++ short) = true :=
  Catalog.isClassMember_iff.mpr ⟨name, short, s, Name.split?_append name hdot, hs, hk⟩

theorem url_of_member (hs : site.catalog.symbols.find? name = some s) (hk : s.kind = .cls)
    (hname : name ∉ site.catalog.aliases) (hdot : '.' ∉ short.toList)
    (hm : site.catalog.symbols.find? (name ++ "." ++ short) = some member)
    (hcanonical : name ++ "." ++ short ∉ site.catalog.aliases) (hmember : member.kind ≠ .cls)
    (root : String) : site.resolver.url (name ++ "." ++ short) root =
      .ok (Url.join root (Name.pagePath name) ++ "#" ++ short) := by
  have hown : ¬ site.hasPage (name ++ "." ++ short) = true := by
    rw [hasPage_eq hm, Catalog.ownsPage_iff, isClassMember_append hs hk hdot]
    rintro ⟨-, h | h⟩
    · exact hmember h
    · cases h
  have hparent : site.resolver.canonical name ∈ site.catalog.symbols := by
    rw [canonical_eq_self hname]
    exact Table.mem_of_find? hs
  rw [(sentTo_member hdot hcanonical hown hparent).url_eq, canonical_eq_self hname,
    String.append_assoc]

theorem url_of_cls (hs : site.catalog.symbols.find? name = some s) (hk : s.kind = .cls)
    (hname : name ∉ site.catalog.aliases) (root : String) :
    site.resolver.url name root = .ok (Url.join root (Name.pagePath name)) := by
  have hown : site.resolver.HasPage (site.resolver.canonical name) := by
    rw [canonical_eq_self hname]
    exact hasPage_iff.mp (hasPage_of_cls hs hk)
  rw [(Resolver.SentTo.own hown).url_eq, canonical_eq_self hname, String.append_empty]

theorem exists_member_of_page {page : Page} (hk : s.kind = .cls)
    (h : (site.page name s).result = .ok page) {c : Child}
    (hc : .ok c ∈ site.children (site.resolver.canonical name)) :
    ∃ members m, page.body = .cls (ClassMembers.ofList members) ∧ m ∈ members ∧
      site.classMember (Name.rootPath (site.resolver.canonical name)) c = .ok m := by
  obtain ⟨doc, body, -, hb, rfl⟩ := page_eq_ok_iff.mp h
  rw [body_cls hk] at hb
  obtain ⟨members, hms, rfl⟩ := map_eq_ok_iff.mp hb
  obtain ⟨m, hm, hmake⟩ := exists_member_of_child hms hc
  exact ⟨members, m, rfl, hm, hmake⟩

/-- The addresses of the members of a class are anchors and links that its page has. -/
theorem addresses_match_class_page (site : Site) {name short : String} {s member : Symbol}
    {page : Page} (hempty : name ≠ "") (hname : name ∉ site.catalog.aliases)
    (hs : site.catalog.symbols.find? name = some s) (hk : s.kind = .cls)
    (hpage : (site.page name s).result = .ok page)
    (hshort : short ∈ (site.catalog.tree.find? name).getD []) (hdot : '.' ∉ short.toList)
    (hhidden : short ∉ site.options.hidden)
    (hm : site.catalog.symbols.find? (name ++ "." ++ short) = some member)
    (hcanonical : name ++ "." ++ short ∉ site.catalog.aliases) :
    (member.kind ≠ .cls →
      (∀ root, site.resolver.url (name ++ "." ++ short) root =
        .ok (Url.join root (Name.pagePath name) ++ "#" ++ short)) ∧
      Shows page.markdown ("<h3 id=\"" ++ short ++ "\">")) ∧
    (member.kind = .cls →
      (∀ root, site.resolver.url (name ++ "." ++ short) root =
        .ok (Url.join root (Name.pagePath (name ++ "." ++ short)))) ∧
      Shows page.markdown ("[`class " ++ short ++ "`](" ++
        Url.join (Name.rootPath name) (Name.pagePath (name ++ "." ++ short)) ++ ")")) := by
  have hchild : Name.child name short = name ++ "." ++ short := if_neg hempty
  have hc : .ok ⟨short, name ++ "." ++ short, member⟩ ∈
      site.children (site.resolver.canonical name) := by
    rw [canonical_eq_self hname, mem_children]
    exact ⟨short, hshort, child_eq_ok_iff.mpr ⟨hhidden, rfl, hchild.symm, hm⟩⟩
  obtain ⟨members, m, hb, hmem, hmake⟩ := exists_member_of_page hk hpage hc
  obtain ⟨url, doc, signature?, hu, -, -, rfl⟩ := classMember_eq_ok_iff.mp hmake
  constructor
  · intro hmember
    refine ⟨url_of_member hs hk hname hdot hm hcanonical hmember, ?_⟩
    have hanchor := ClassMembers.shows_anchor hmem hmember
    exact Page.shows_markdown hb hanchor
  · intro hmember
    have hurl := url_of_cls hm hmember hcanonical
    refine ⟨hurl, Page.shows_markdown hb ?_⟩
    rw [memberUrl_eq_ok_iff, canonical_eq_self hname, hurl] at hu
    cases hu
    have hlink := ClassMembers.shows_classLink hmem hmember
    exact hlink.trans (Member.shows_link_of_classLink _ rfl)

def nestedClass : Site where
  catalog :=
    let symbol (kind : Kind) : Symbol := ⟨kind, none, none, none⟩
    { symbols := .ofList [("C", symbol .cls), ("C.f", symbol .function), ("C.D", symbol .cls)]
      aliases := .empty
      tree := .ofList [("C", ["f", "D"])]
      documents := .empty
      guides := .empty
      moduleNames := [] }
  options := {}
  direct := nofun

theorem page_nestedClass : ∃ page,
    (nestedClass.page "C" ⟨.cls, none, none, none⟩).result = .ok page := by
  have hchildren : visible (nestedClass.children "C") =
      [⟨"f", "C.f", ⟨.function, none, none, none⟩⟩, ⟨"D", "C.D", ⟨.cls, none, none, none⟩⟩] := by
    decide +kernel
  have hf : ∃ m, nestedClass.classMember "." ⟨"f", "C.f", ⟨.function, none, none, none⟩⟩ =
      .ok m := by
    have hu : nestedClass.memberUrl "C.f" "." = .ok "./C.md#f" := by decide +kernel
    exact ⟨_, classMember_eq_ok_iff.mpr ⟨_, _, _, hu, docstring_of_none rfl, rfl, rfl⟩⟩
  have hD : ∃ m, nestedClass.classMember "." ⟨"D", "C.D", ⟨.cls, none, none, none⟩⟩ = .ok m := by
    have hu : nestedClass.memberUrl "C.D" "." = .ok "./C/D.md" := by decide +kernel
    exact ⟨_, classMember_eq_ok_iff.mpr ⟨_, _, _, hu, docstring_of_none rfl, rfl, rfl⟩⟩
  obtain ⟨f, hf⟩ := hf
  obtain ⟨D, hD⟩ := hD
  have hbody : (nestedClass.body "C" "." ⟨.cls, none, none, none⟩ "C").result =
      .ok (.cls (ClassMembers.ofList [f, D])) := by
    rw [body_cls rfl, result_members, hchildren, mapM_eq_ok_iff.mpr (.cons hf (.cons hD .nil))]
    rfl
  have hroot : nestedClass.resolver.canonical "C" = "C" := by decide +kernel
  exact ⟨_, page_eq_ok_iff.mpr ⟨_, _, docstring_of_none rfl, hroot ▸ hbody, rfl⟩⟩

theorem addresses_match_nestedClass : ∃ page,
    (nestedClass.page "C" ⟨.cls, none, none, none⟩).result = .ok page ∧
      nestedClass.resolver.url "C.f" "." = .ok "./C.md#f" ∧ Shows page.markdown "<h3 id=\"f\">" ∧
      nestedClass.resolver.url "C.D" "." = .ok "./C/D.md" ∧
      Shows page.markdown "[`class D`](./C/D.md)" := by
  obtain ⟨page, hp⟩ := page_nestedClass
  have hs : nestedClass.catalog.symbols.find? "C" = some ⟨.cls, none, none, none⟩ := by
    decide +kernel
  have hf : nestedClass.catalog.symbols.find? ("C" ++ "." ++ "f") =
      some ⟨.function, none, none, none⟩ := by decide +kernel
  have hD : nestedClass.catalog.symbols.find? ("C" ++ "." ++ "D") =
      some ⟨.cls, none, none, none⟩ := by decide +kernel
  obtain ⟨hf, -⟩ := addresses_match_class_page nestedClass (by decide) (by decide +kernel) hs rfl
    hp (by decide +kernel) (by decide) (by decide) hf (by decide +kernel)
  obtain ⟨-, hD⟩ := addresses_match_class_page nestedClass (by decide) (by decide +kernel) hs rfl
    hp (by decide +kernel) (by decide) (by decide) hD (by decide +kernel)
  obtain ⟨hfurl, hfshows⟩ := hf nofun
  obtain ⟨hDurl, hDshows⟩ := hD rfl
  exact ⟨page, hp, hfurl ".", hfshows, hDurl ".", hDshows⟩

end Site

end RefDoc
