import Mathlib.Data.List.Basic
import RefDoc.Name
import RefDoc.Proofs.Text.Split
import RefDoc.Url

namespace RefDoc

namespace Name

theorem split?_append (parent : String) {last : String} (h : '.' ∉ last.toList) :
    split? (parent ++ "." ++ last) = some (parent, last) := by
  have hs : (parent ++ "." ++ last).toList = parent.toList ++ '.' :: last.toList := by
    simp [String.toList_append]
  rw [split?, hs, Text.cutLast?_append _ h]
  simp

def segments (name : String) : List String := (Text.splitAt '.' name.toList).map String.ofList

/-- A name whose segments are directories and files: none is empty or holds a slash. -/
def WellFormed (name : String) : Prop :=
  ∀ segment ∈ segments name, segment ≠ "" ∧ '/' ∉ segment.toList

instance (name : String) : Decidable (WellFormed name) :=
  inferInstanceAs (Decidable (∀ segment ∈ segments name, _))

end Name

namespace Url

def Named (segment : String) : Prop := segment ≠ "" ∧ segment ≠ "." ∧ segment ≠ ".."

/-- The segments of the path to which a link on the page at `path` leads. -/
def follow (path link : String) : List String :=
  resolve false ((segments path).dropLast ++ segments link)

theorem intercalate_segments (path : String) : String.intercalate "/" (segments path) = path := by
  apply String.toList_inj.mp
  rw [String.toList_intercalate, segments, List.map_map]
  simpa [Function.comp_def] using Text.intercalate_splitAt '/' path.toList

variable {absolute : Bool} {segment : String} {dirs parts kept : List String}

theorem visit_named (h : Named segment) (kept : List String) :
    visit absolute kept segment = segment :: kept := by
  obtain ⟨he, hd, hu⟩ := h
  simp only [visit, he, hd, hu, or_self, if_false]

theorem visit_up_cons (top : String) (rest : List String) :
    visit absolute (top :: rest) ".." = if top = ".." then ".." :: top :: rest else rest := rfl

theorem foldl_visit_named (h : ∀ part ∈ parts, Named part) (kept : List String) :
    parts.foldl (visit absolute) kept = parts.reverse ++ kept := by
  induction parts generalizing kept with
  | nil => rfl
  | cons part parts ih =>
    obtain ⟨hpart, hparts⟩ := List.forall_mem_cons.mp h
    rw [List.foldl_cons, visit_named hpart, ih hparts, List.reverse_cons, List.append_assoc,
      List.singleton_append]

theorem foldl_visit_up (absolute : Bool) (h : ∀ dir ∈ dirs, Named dir) (kept : List String) :
    (List.replicate dirs.length "..").foldl (visit absolute) (dirs ++ kept) = kept := by
  induction dirs with
  | nil => rfl
  | cons dir dirs ih =>
    obtain ⟨⟨-, -, hu⟩, hdirs⟩ := List.forall_mem_cons.mp h
    rw [List.length_cons, List.replicate_succ, List.foldl_cons, List.cons_append, visit_up_cons,
      if_neg hu, ih hdirs]

/-- Steps up cancel the directories in front of them. -/
theorem resolve_up (hd : ∀ dir ∈ dirs, Named dir) (hp : ∀ part ∈ parts, Named part) :
    resolve absolute (dirs ++ (List.replicate dirs.length ".." ++ parts)) = parts := by
  have hr : ∀ dir ∈ dirs.reverse, Named dir := fun dir hm => hd dir (List.mem_reverse.mp hm)
  have hu := foldl_visit_up absolute hr []
  rw [List.length_reverse, List.append_nil] at hu
  rw [resolve, List.foldl_append, List.foldl_append, foldl_visit_named hd, List.append_nil, hu,
    foldl_visit_named hp, List.append_nil, List.reverse_reverse]

theorem resolve_here (hp : ∀ part ∈ parts, Named part) :
    resolve absolute ("." :: parts) = parts := by
  have hv : visit absolute [] "." = [] := by simp [visit]
  rw [resolve, List.foldl_cons, hv, foldl_visit_named hp, List.append_nil, List.reverse_reverse]

theorem join_append (root target ext : String) :
    join root target ++ ext = join root (target ++ ext) := by
  rw [join, join]
  split
  · rfl
  · split <;> simp only [String.append_assoc]

theorem join_right_inj {root target target' : String} :
    join root target = join root target' ↔ target = target' := by
  rw [join, join]
  split
  · rfl
  · split
    · exact String.append_right_inj root
    · exact String.append_right_inj (root ++ "/")

theorem segments_append_slash (root target : String) :
    segments (root ++ "/" ++ target) = segments root ++ segments target := by
  simp [segments, String.toList_append, Text.splitAt_append_cons]

theorem join_of_not_mem {root : String} (h : "" ∉ segments root) (target : String) :
    join root target = root ++ "/" ++ target := by
  have hne : root ≠ "" := by
    rintro rfl
    exact h List.mem_cons_self
  have hlast : root.toList.getLast? ≠ some '/' := by
    intro hl
    obtain ⟨cs, hr⟩ := List.getLast?_eq_some_iff.mp hl
    apply h
    rw [segments, hr, Text.splitAt_append_cons, List.map_append]
    exact List.mem_append_right _ List.mem_cons_self
  rw [join, if_neg hne, if_neg hlast]

theorem segments_join {root : String} (h : "" ∉ segments root) (target : String) :
    segments (join root target) = segments root ++ segments target := by
  rw [join_of_not_mem h, segments_append_slash]

end Url

namespace Name

open Url

variable {name : String}

theorem length_segments (name : String) : (segments name).length = depth name + 1 := by
  rw [segments, List.length_map, Text.length_splitAt, depth]

theorem WellFormed.named {segment : String} (h : WellFormed name) (hs : segment ∈ segments name) :
    Named segment := by
  obtain ⟨part, hp, rfl⟩ := List.mem_map.mp hs
  have hdot := Text.not_mem_of_mem_splitAt hp
  refine ⟨(h _ hs).1, ?_, ?_⟩ <;> intro he <;>
    simp [← String.toList_inj] at he <;> simp [he] at hdot

theorem named_of_mem {segment : String} (h : 'm' ∈ segment.toList) : Named segment := by
  refine ⟨?_, ?_, ?_⟩ <;> rintro rfl <;> simp at h

def slashed (name : String) : List Char := name.toList.map fun c => if c = '.' then '/' else c

theorem pagePath_eq (name : String) : pagePath name = String.ofList (slashed name) ++ ".md" := rfl

theorem slashed_eq_intercalate (name : String) :
    slashed name = ['/'].intercalate (Text.splitAt '.' name.toList) := by
  have hmap (part : List Char) (hp : part ∈ Text.splitAt '.' name.toList) :
      part.map (fun c => if c = '.' then '/' else c) = part := by
    have hdot := Text.not_mem_of_mem_splitAt hp
    have hid (c : Char) (hc : c ∈ part) : (if c = '.' then '/' else c) = c :=
      if_neg (ne_of_mem_of_not_mem hc hdot)
    rw [List.map_congr_left hid, List.map_id']
  have hname := congrArg (List.map fun c => if c = '.' then '/' else c)
    (Text.intercalate_splitAt '.' name.toList)
  rw [Text.map_intercalate, List.map_congr_left hmap, List.map_id'] at hname
  exact hname.symm

theorem dot_not_mem_slashed (name : String) : '.' ∉ slashed name := by
  intro hm
  obtain ⟨c, -, hc⟩ := List.mem_map.mp hm
  split at hc
  · cases hc
  · next hne => exact hne hc

theorem eq_of_slashed_eq {name' : String} (h : slashed name = slashed name')
    (hn : '/' ∉ name.toList) (hn' : '/' ∉ name'.toList) : name = name' := by
  have hback {name : String} (hs : '/' ∉ name.toList) :
      (slashed name).map (fun c => if c = '/' then '.' else c) = name.toList := by
    rw [slashed, List.map_map]
    refine (List.map_congr_left fun c hm => ?_).trans (List.map_id' name.toList)
    by_cases hdot : c = '.'
    · simp [hdot]
    · simp [hdot, ne_of_mem_of_not_mem hm hs]
  apply String.toList_inj.mp
  rw [← hback hn, h, hback hn']

theorem slashed_eq_of_append_eq {name' ext ext' : String}
    (h : pagePath name ++ ext = pagePath name' ++ ext') : slashed name = slashed name' := by
  have hcut (name ext : String) : Text.cutFirst? '.' (pagePath name ++ ext).toList =
      some (slashed name, "md".toList ++ ext.toList) := by
    rw [String.toList_append, pagePath_eq, String.toList_append, String.toList_ofList,
      List.append_assoc]
    exact Text.cutFirst?_append (dot_not_mem_slashed name) _
  have he := hcut name ext
  rw [h, hcut name' ext', Option.some.injEq, Prod.mk.injEq] at he
  exact he.1.symm

/-- A path ends behind its first dot, so what stands behind a path can be told from it. -/
theorem pagePath_append_eq_iff {name' ext ext' : String} :
    pagePath name ++ ext = pagePath name' ++ ext' ↔
      pagePath name = pagePath name' ∧ ext = ext' := by
  constructor
  · intro h
    have hp : pagePath name = pagePath name' := by
      rw [pagePath_eq, pagePath_eq, slashed_eq_of_append_eq h]
    rw [hp] at h
    exact ⟨hp, (String.append_right_inj _).mp h⟩
  · rintro ⟨hp, rfl⟩
    rw [hp]

theorem eq_of_pagePath_eq {name' : String} (h : pagePath name = pagePath name')
    (hn : '/' ∉ name.toList) (hn' : '/' ∉ name'.toList) : name = name' := by
  apply eq_of_slashed_eq _ hn hn'
  exact slashed_eq_of_append_eq (congrArg (· ++ "") h)

theorem segments_pagePath (h : WellFormed name) {ext : String} (he : '/' ∉ ext.toList) :
    ∃ dirs file, segments name = dirs ++ [file] ∧
      Url.segments (pagePath name ++ ext) = dirs ++ [file ++ ".md" ++ ext] := by
  obtain ⟨dirs, file, hp⟩ := (List.eq_nil_or_concat' (Text.splitAt '.' name.toList)).resolve_left
    (Text.splitAt_ne_nil '.' name.toList)
  refine ⟨dirs.map String.ofList, String.ofList file, by simp [segments, hp], ?_⟩
  have hpath : (pagePath name ++ ext).toList =
      ['/'].intercalate (dirs ++ [file ++ (".md".toList ++ ext.toList)]) := by
    rw [String.toList_append, pagePath_eq, String.toList_append, String.toList_ofList,
      slashed_eq_intercalate, hp, List.append_assoc, Text.intercalate_concat_append]
  have hslash : ∀ part ∈ dirs ++ [file], '/' ∉ part := by
    intro part hm
    have hs := (h (String.ofList part) (List.mem_map_of_mem (hp ▸ hm))).2
    rwa [String.toList_ofList] at hs
  rw [Url.segments, hpath, Text.splitAt_intercalate]
  · simp [← String.toList_inj]
  · intro part hm
    obtain hm | hm := List.mem_append.mp hm
    · exact hslash part (List.mem_append_left _ hm)
    · rw [List.mem_singleton.mp hm]
      simp [hslash file (by simp), he]
  · simp

theorem named_of_mem_pagePath (h : WellFormed name) {ext : String} (he : '/' ∉ ext.toList)
    {part : String} (hm : part ∈ Url.segments (pagePath name ++ ext)) : Named part := by
  obtain ⟨dirs, file, hs, hd⟩ := segments_pagePath h he
  rw [hd] at hm
  obtain hm | hm := List.mem_append.mp hm
  · exact h.named (by simp [hs, hm])
  · rw [List.mem_singleton.mp hm]
    exact named_of_mem (by simp)

theorem segments_rootPath (name : String) : Url.segments (rootPath name) =
    if depth name = 0 then ["."] else List.replicate (depth name) ".." := by
  rw [rootPath]
  split
  · decide
  · next hd =>
    rw [Url.segments, String.toList_intercalate, List.map_replicate]
    change (Text.splitAt '/' (['/'].intercalate _)).map _ = _
    rw [Text.splitAt_intercalate, List.map_replicate]
    · rfl
    · intro part hm
      rw [(List.mem_replicate.mp hm).2]
      decide
    · simpa using hd

theorem empty_not_mem_segments_rootPath (name : String) : "" ∉ Url.segments (rootPath name) := by
  rw [segments_rootPath]
  split <;> simp

/-- A link from the page of one name to the page of another leads there, whatever their depths. -/
theorem follow_pagePath {page ext : String} (hn : WellFormed name) (hp : WellFormed page)
    (he : '/' ∉ ext.toList) :
    follow (pagePath name) (Url.join (rootPath name) (pagePath page) ++ ext) =
      Url.segments (pagePath page ++ ext) := by
  have hempty : '/' ∉ "".toList := List.not_mem_nil
  obtain ⟨dirs, file, hs, hd⟩ := segments_pagePath hn hempty
  rw [String.append_empty, String.append_empty] at hd
  have hdirs : ∀ dir ∈ dirs, Named dir := fun dir hm => hn.named (by simp [hs, hm])
  have hpage : ∀ part ∈ Url.segments (pagePath page ++ ext), Named part :=
    fun part => named_of_mem_pagePath hp he
  have hdepth : depth name = dirs.length := by
    have hl := length_segments name
    rw [hs, List.length_append, List.length_singleton] at hl
    omega
  rw [follow, Url.join_append, Url.segments_join (empty_not_mem_segments_rootPath name),
    segments_rootPath, hd, List.dropLast_concat, hdepth]
  split
  · next h0 =>
    rw [List.eq_nil_of_length_eq_zero h0, List.nil_append, List.singleton_append,
      resolve_here hpage]
  · exact resolve_up hdirs hpage

end Name

end RefDoc
