import RefDoc.Proofs.Docstring.Notes
import RefDoc.Proofs.Docstring.Roles
import RefDoc.Proofs.Page.Anchors

namespace RefDoc

open Docstring

/-- A heading that follows another one is set off by an empty line. -/
def Docstring.Role.listMarkdown (follows : Bool) : List Role → String
  | [] => ""
  | .text line :: roles => line ++ listMarkdown follows roles
  | .item entry :: roles =>
    "* **" ++ entry.name ++ "**:" ++ entry.description ++ listMarkdown follows roles
  | .heading keyword _ :: roles =>
    (if follows then "\n" else "") ++ "#### " ++ keyword ++ ":\n\n" ++ listMarkdown true roles

namespace Section

def nextMarkdown (follows : Bool) : List Section → String
  | [] => ""
  | s :: sections => (if follows then "\n" else "") ++ s.markdown ++ nextMarkdown true sections

theorem listMarkdown_eq (sections : List Section) :
    listMarkdown sections = nextMarkdown false sections := by
  have hnext (s : Section) (sections : List Section) :
      listMarkdown (s :: sections) = s.markdown ++ nextMarkdown true sections := by
    induction sections generalizing s with
    | nil => simp [listMarkdown, nextMarkdown]
    | cons t sections ih =>
      have hcons : listMarkdown (s :: t :: sections) =
          s.markdown ++ "\n" ++ listMarkdown (t :: sections) := String.intercalate_cons_cons
      rw [hcons, ih, nextMarkdown, if_pos rfl]
      simp only [String.append_assoc]
  cases sections with
  | nil => rfl
  | cons s sections => exact (hnext s sections).trans (by simp [nextMarkdown])

end Section

namespace Docstring

theorem Role.listMarkdown_eq (follows : Bool) (roles : List Role) :
    listMarkdown follows roles = (Addition.ofRoles roles).text ++
      String.join ((Addition.ofRoles roles).items.map Section.itemMarkdown) ++
      Section.nextMarkdown follows (Addition.ofRoles roles).sections := by
  induction roles generalizing follows with
  | nil => rfl
  | cons role roles ih =>
    cases role with
    | text line => simp [listMarkdown, ih, Addition.ofRoles, Addition.prepend, String.append_assoc]
    | item entry =>
      simp [listMarkdown, ih, Addition.ofRoles, Addition.prepend, Section.itemMarkdown,
        String.append_assoc]
    | heading keyword indent =>
      simp [listMarkdown, ih, Addition.ofRoles, Addition.prepend, Section.nextMarkdown,
        Section.markdown, String.append_assoc]

variable {text : String} {keywords : Option (List String)} {roles : List Role}

theorem markdown_eq_listMarkdown (h : Blockless ((Text.lines text).drop 1))
    (hr : Reads keywords "" ((Text.lines text).drop 1) roles) :
    (ofText text keywords).body ++ Section.listMarkdown (ofText text keywords).sections =
      String.join ((Text.lines text).take 1) ++ Role.listMarkdown false roles := by
  obtain ⟨hbody, hsections⟩ := ofText_of_reads h hr
  obtain ⟨front, parts, hc⟩ := exists_cut (Titles keywords) ((Text.lines text).drop 1)
  have hitems : (Addition.ofRoles roles).items = [] := ((hr.fills hc).1.flat rfl).2
  rw [Role.listMarkdown_eq, hitems, hbody, hsections, Section.listMarkdown_eq]
  simp [String.append_assoc]

theorem markdown_ofText (keywords : Option (List String))
    (h : Blockless ((Text.lines text).drop 1)) :
    (ofText text keywords).markdown =
      (ofText text keywords).body ++ Section.listMarkdown (ofText text keywords).sections := by
  rw [markdown, notes_of_blockless keywords h, notesMarkdown_empty, String.append_empty]

end Docstring

open Text

/-- Whether pages show a docstring as one text. -/
structure Docstring.IsShownAs (doc : Docstring) (shown : String) : Prop where
  function {page : Page} {signature : String} (hp : page.doc = doc)
    (hb : page.body = .function signature) : page.markdown = page.head ++ page.guides ++ shown
  cls {page : Page} {ms : ClassMembers} (hp : page.doc = doc) (hb : page.body = .cls ms) :
    page.markdown = page.head ++ page.guides ++ shown ++ "\n\n" ++ ms.markdown
  property {page : Page} {ms : ClassMembers} {m : Member} (hb : page.body = .cls ms)
    (hm : m ∈ ms.properties) (hd : m.doc = doc) :
    Shows page.markdown (m.heading "" ++ shown ++ "\n\n")
  method {page : Page} {ms : ClassMembers} {m : Member} (hb : page.body = .cls ms)
    (hm : m ∈ ms.methods) (hd : m.doc = doc) :
    Shows page.markdown (m.heading (m.signature?.getD "") ++ shown ++ "\n\n")

theorem Docstring.isShownAs_markdown (doc : Docstring) : doc.IsShownAs doc.markdown where
  function hp hb := by rw [Page.markdown_function hb, hp]
  cls hp hb := by rw [Page.markdown_cls hb, hp]
  property hb hm hd := hd ▸ Page.shows_markdown hb (ClassMembers.shows_property hm)
  method hb hm hd := hd ▸ Page.shows_markdown hb (ClassMembers.shows_method hm)

/-- A docstring is shown line by line, each by its role. -/
theorem markdown_rewrites_lines {text : String} (keywords : Option (List String))
    (h : Blockless ((Text.lines text).drop 1)) :
    (∃ roles, Reads keywords "" ((Text.lines text).drop 1) roles) ∧
    ∀ roles, Reads keywords "" ((Text.lines text).drop 1) roles →
      let doc := Docstring.ofText text keywords
      let shown := String.join ((Text.lines text).take 1) ++ Role.listMarkdown false roles
      doc.body = String.join ((Text.lines text).take 1) ++ (Addition.ofRoles roles).text ∧
      doc.sections = (Addition.ofRoles roles).sections ∧
      doc.body ++ Section.listMarkdown doc.sections = shown ∧ doc.IsShownAs shown := by
  refine ⟨exists_reads _ _ _, ?_⟩
  intro roles hr doc shown
  obtain ⟨hbody, hsections⟩ := ofText_of_reads h hr
  have hshown : doc.body ++ Section.listMarkdown doc.sections = shown :=
    markdown_eq_listMarkdown h hr
  have hdoc : doc.markdown = shown := (markdown_ofText keywords h).trans hshown
  exact ⟨hbody, hsections, hshown, hdoc ▸ doc.isShownAs_markdown⟩

theorem markdown_rewrites_lines_twoSections :
    let doc := Docstring.ofText "Brief.\n\nArgs:\n  x: an x\n  or y\nReturns:\n  None." none
    doc.sections = [⟨"Args", "", "  ", [⟨"x", " an x\n  or y\n"⟩]⟩,
      ⟨"Returns", "  None.", "  ", []⟩] ∧
    doc.IsShownAs
      "Brief.\n\n#### Args:\n\n* **x**: an x\n  or y\n\n#### Returns:\n\n  None." := by
  intro doc
  have hl : Text.lines "Brief.\n\nArgs:\n  x: an x\n  or y\nReturns:\n  None." =
      ["Brief.\n", "\n", "Args:\n", "  x: an x\n", "  or y\n", "Returns:\n", "  None."] := by
    decide +kernel
  have htext {line : String} (h : Line.keyword? none line = none) :
      ∀ word, ¬ Titles none line word :=
    keyword?_eq_none_iff.mp h
  have hlast : Cut (Titles none) ["  None."] ["  None."] [] :=
    .plain (htext (by decide +kernel)) .nil
  have hreturns : Titles none "Returns:\n" "Returns" :=
    keyword?_eq_some_iff.mp (by decide +kernel)
  have hfirst : Cut (Titles none) ["  x: an x\n", "  or y\n", "Returns:\n", "  None."]
      ["  x: an x\n", "  or y\n"] [("Returns", ["  None."])] :=
    .plain (htext (by decide +kernel)) (.plain (htext (by decide +kernel)) (.marked hreturns hlast))
  have hr : Reads none "" ["\n", "Args:\n", "  x: an x\n", "  or y\n", "Returns:\n", "  None."]
      [.text "\n", .heading "Args" "  ", .item ⟨"x", " an x\n"⟩, .text "  or y\n",
        .heading "Returns" "  ", .text "  None."] := by
    refine .text (htext (by decide +kernel)) (fun hn => absurd rfl hn) ?_
    refine .heading (keyword?_eq_some_iff.mp (by decide +kernel)) hfirst ?_
    refine .item (htext (by decide +kernel)) (by decide) (Line.item?_eq_some_iff.mp
      (by decide +kernel)) ?_
    refine .text (htext (by decide +kernel)) (fun _ => item?_eq_none_iff.mp (by decide +kernel)) ?_
    refine .heading hreturns hlast ?_
    exact .text (htext (by decide +kernel)) (fun _ => item?_eq_none_iff.mp (by decide +kernel)) .nil
  have hblockless : Blockless
      ((Text.lines "Brief.\n\nArgs:\n  x: an x\n  or y\nReturns:\n  None.").drop 1) := by
    rw [hl]
    decide +kernel
  obtain ⟨-, hall⟩ := markdown_rewrites_lines none hblockless
  rw [hl] at hall
  obtain ⟨-, hsections, -, hshown⟩ := hall _ hr
  exact ⟨hsections.trans (by decide +kernel), hshown⟩

end RefDoc
