import RefDoc.Guide
import RefDoc.Proofs.Reference.Grammar
import RefDoc.Proofs.Url

namespace RefDoc

namespace Url

def Ordinary (segment : String) : Prop := Named segment ∧ '/' ∉ segment.toList

instance (segment : String) : Decidable (Ordinary segment) :=
  inferInstanceAs (Decidable ((segment ≠ "" ∧ segment ≠ "." ∧ segment ≠ "..") ∧ _))

/-- The directory of a file: its path without the last segment. -/
def directory (path : String) : String := written (segments path).dropLast

/-- Where an address on a page leads from the document root, two directories above the pages. -/
def fromPage (outer inner name address : String) : String :=
  outer ++ "/" ++ inner ++ "/" ++ directory (Name.pagePath name) ++ "/" ++ address

def Relative (path : String) : Prop := path ≠ "" ∧ ¬ Absolute path

instance (path : String) : Decidable (Relative path) :=
  inferInstanceAs (Decidable (path ≠ "" ∧ _))

/-- Whether an address on the page of a name names what a url names at the document root. -/
def Denotes (name address url : String) : Prop :=
  ∀ outer inner, Ordinary outer → Ordinary inner →
    normalize (fromPage outer inner name address) = normalize url

variable {absolute : Bool} {outer inner name : String}

theorem segments_of_ordinary {segment : String} (h : Ordinary segment) :
    segments segment = [segment] := by
  rw [segments, Text.splitAt_eq_splitOn, List.splitOn_eq_singleton h.2, List.map_singleton,
    String.ofList_toList]

/-- The directory of a page holds a segment for each step of the way back to the root. -/
theorem foldl_visit_directory (hn : Name.WellFormed name) (stack : List String) :
    (segments (Name.rootPath name)).foldl (visit absolute)
      ((segments (directory (Name.pagePath name))).foldl (visit absolute) stack) = stack := by
  have hempty : '/' ∉ "".toList := List.not_mem_nil
  obtain ⟨dirs, file, hs, hd⟩ := Name.segments_pagePath hn hempty
  rw [String.append_empty, String.append_empty] at hd
  have hdirs : ∀ dir ∈ dirs, Named dir := fun dir hm => hn.named (by simp [hs, hm])
  have hslash : ∀ dir ∈ dirs, '/' ∉ dir.toList := fun dir hm => (hn dir (by simp [hs, hm])).2
  have hdepth : Name.depth name = dirs.length := by
    have hl := Name.length_segments name
    rw [hs, List.length_append, List.length_singleton] at hl
    omega
  rw [directory, hd, List.dropLast_concat, segments_written hslash, Name.segments_rootPath, hdepth]
  by_cases hnil : dirs = []
  · subst hnil
    rfl
  · rw [if_neg hnil, if_neg (by simpa using hnil), foldl_visit_named hdirs, ← List.length_reverse]
    apply foldl_visit_up
    intro dir hm
    exact hdirs dir (List.mem_reverse.mp hm)

theorem resolve_fromPage (hn : Name.WellFormed name) (ho : Ordinary outer) (hi : Ordinary inner) :
    resolve false
      (segments (fromPage outer inner name (Name.rootPath name ++ "/" ++ documentRoot))) = [] := by
  have hroot : segments documentRoot = ["..", ".."] := by decide
  have hpages : (segments inner).foldl (visit false) ((segments outer).foldl (visit false) []) =
      [inner, outer] := by
    rw [segments_of_ordinary ho, segments_of_ordinary hi, List.foldl_cons, List.foldl_cons,
      List.foldl_nil, List.foldl_nil, visit_named ho.1, visit_named hi.1]
  have hdirs : ∀ dir ∈ [inner, outer], Named dir := by simp [ho.1, hi.1]
  have hup : ["..", ".."].foldl (visit false) [inner, outer] = [] := foldl_visit_up false hdirs []
  rw [resolve, fromPage]
  simp only [← String.append_assoc, segments_append_slash, List.foldl_append]
  rw [hpages, foldl_visit_directory hn, hroot, hup, List.reverse_nil]

theorem document_eq (name url : String) :
    document (Name.rootPath name) url =
      normalize (Name.rootPath name ++ "/" ++ documentRoot ++ "/" ++ url) := by
  have hroot := Name.empty_not_mem_segments_rootPath name
  have hup : "" ∉ segments (Name.rootPath name ++ "/" ++ documentRoot) := by
    rw [segments_append_slash]
    exact List.not_mem_append hroot (by decide)
  rw [document, join_of_not_mem hroot, join_of_not_mem hup]

variable {url : String}

theorem denotes_document (hn : Name.WellFormed name) (hu : Relative url) :
    Denotes name (document (Name.rootPath name) url) url := by
  intro outer inner ho hi
  obtain ⟨hne, hr⟩ := hu
  have hroot := Name.empty_not_mem_segments_rootPath name
  have houter : "" ∉ segments outer := by
    rw [segments_of_ordinary ho]
    simpa using ho.1.1.symm
  have hclimb : Name.rootPath name ++ "/" ++ documentRoot ++ "/" ++ url ≠ "" := by
    simp
  have hrel : ¬ Absolute (Name.rootPath name ++ "/" ++ documentRoot ++ "/" ++ url) := by
    have h := not_absolute_append hroot (documentRoot ++ "/" ++ url)
    simpa only [String.append_assoc] using h
  have hbase : ¬ Absolute
      (fromPage outer inner name (Name.rootPath name ++ "/" ++ documentRoot) ++ "/") := by
    have h := not_absolute_append houter (inner ++ "/" ++ directory (Name.pagePath name) ++ "/" ++
      (Name.rootPath name ++ "/" ++ documentRoot) ++ "/")
    simpa only [fromPage, String.append_assoc] using h
  -- The way up to the root undoes the outer and inner directory, and only the target is left.
  calc normalize (fromPage outer inner name (document (Name.rootPath name) url))
    _ = normalize (fromPage outer inner name
          (Name.rootPath name ++ "/" ++ documentRoot ++ "/" ++ url)) := by
      rw [document_eq, fromPage, normalize_append_normalize _ hclimb hrel, fromPage]
    _ = normalize (fromPage outer inner name (Name.rootPath name ++ "/" ++ documentRoot) ++ "/" ++
          url) := by
      simp only [fromPage, String.append_assoc]
    _ = normalize url := normalize_of_resolve_eq_nil hbase (resolve_fromPage hn ho hi) hne hr

end Url

open Url

theorem Guide.link_eq (g : Guide) (root : String) :
    g.link root = Resolver.link g.text (Url.document root g.url ++ g.anchor) := by
  simp only [link, Resolver.link, String.append_assoc]

/-- On the page of a name the links to a document denote the document. -/
theorem documents_denoted {σ : Type u} {name : String} (hn : Name.WellFormed name) :
    (∀ url, Relative url → Denotes name (Url.document (Name.rootPath name) url) url) ∧
    (∀ g : Guide, Relative g.url → ∃ address,
      g.link (Name.rootPath name) = Resolver.link g.text (address ++ g.anchor) ∧
        Denotes name address g.url) ∧
    ∀ (r : Resolver σ) (body target anchor : String) (text? : Option String) (document : Document),
      Reference.ofBody body = ⟨.document target anchor, text?⟩ →
      r.documents.find? target = some document → Relative document.url → ∃ address,
        r.resolveBody body (Name.rootPath name) =
            .ok (Resolver.link (text?.getD document.title) (address ++ anchor)) ∧
          Denotes name address document.url := by
  refine ⟨fun url hu => denotes_document hn hu, fun g hu => ?_, ?_⟩
  · exact ⟨_, g.link_eq _, denotes_document hn hu⟩
  · intro r body target anchor text? document hb hd hu
    refine ⟨_, ?_, denotes_document hn hu⟩
    exact (Resolver.resolveBody_document_iff hb).mpr ⟨document, hd, rfl⟩

theorem documents_denoted_outside :
    Name.WellFormed "m.C.f" ∧ Relative "../guides/./first//" ∧ Ordinary "api" ∧ Ordinary "lib" ∧
      Url.document (Name.rootPath "m.C.f") "../guides/./first//" = "../../../../../guides/first/" ∧
      normalize (fromPage "api" "lib" "m.C.f"
        (Url.document (Name.rootPath "m.C.f") "../guides/./first//")) = "../guides/first/" := by
  have hn : Name.WellFormed "m.C.f" := by decide
  have hu : Relative "../guides/./first//" := by decide
  have ho : Ordinary "api" := by decide
  have hi : Ordinary "lib" := by decide
  obtain ⟨hdenotes, -⟩ := documents_denoted (σ := Unit) hn
  have hnormal : normalize "../guides/./first//" = "../guides/first/" := by decide +kernel
  have hlink : Url.document (Name.rootPath "m.C.f") "../guides/./first//" =
      "../../../../../guides/first/" := by
    decide +kernel
  exact ⟨hn, hu, ho, hi, hlink, (hdenotes _ hu "api" "lib" ho hi).trans hnormal⟩

end RefDoc
