import RefDoc.Proofs.Docstring.RewrittenLine

namespace RefDoc.Docstring

open Reference

/-- A text that no later line can close a token of; its own tokens satisfy `good`. -/
structure Settled (good : List Char → Prop) (later : List String) (s : String) : Prop where
  good : ∀ body, .token body ∈ fragments s.toList → good body
  closed : Closed s.toList ∨ ∀ line ∈ later, '}' ∉ line.toList

def Apart (good : List Char → Prop) : List String → Prop
  | [] => True
  | line :: rest => Settled good rest line ∧ Apart good rest

structure Brings (good : List Char → Prop) (line : String) (rest : List String) (text : String) :
    Prop where
  settled : Settled good rest text
  brace : '}' ∈ text.toList → '}' ∈ line.toList

variable {good : List Char → Prop} {line s text : String} {rest : List String} (w : Rewriter)

theorem settled_empty (good : List Char → Prop) (later : List String) : Settled good later "" where
  good body hm := by simp at hm
  closed := .inl closed_nil

theorem Settled.tail (h : Settled good (line :: rest) s) : Settled good rest s where
  good := h.good
  closed := h.closed.imp_right fun hb => (List.forall_mem_cons.mp hb).2

theorem Brings.closed_or_not_mem (hs : Settled good (line :: rest) s)
    (ht : Brings good line rest text) :
    Closed s.toList ∨ '}' ∉ text.toList :=
  hs.closed.imp_right fun hb => mt ht.brace (hb line List.mem_cons_self)

theorem Settled.append (hs : Settled good (line :: rest) s) (ht : Brings good line rest text) :
    Settled good rest (s ++ text) where
  good body hm := by
    rw [String.toList_append, fragments_append (ht.closed_or_not_mem hs), List.mem_append] at hm
    exact hm.elim (hs.good body) (ht.settled.good body)
  closed := by
    rw [String.toList_append]
    obtain hc | hb := hs.closed
    · exact ht.settled.closed.imp_left hc.append
    · exact .inr (List.forall_mem_cons.mp hb).2

theorem Settled.text_append (hs : Settled good (line :: rest) s) (ht : Brings good line rest text) :
    w.text (s ++ text) = w.text s ++ w.text text := by
  apply String.toList_inj.mp
  rw [String.toList_append, w.toList_text, w.toList_text, w.toList_text, String.toList_append,
    w.rewrite_append (ht.closed_or_not_mem hs)]

theorem Settled.brings (h : Settled good rest line) : Brings good line rest line := ⟨h, id⟩

theorem Brings.of_append {pre : String} (hp : Rewriter.Plain pre.toList)
    (h : Settled good rest (pre ++ text)) : Brings good (pre ++ text) rest text := by
  obtain ⟨hg, hc⟩ := h
  rw [String.toList_append] at hg hc
  refine ⟨⟨fun body hm => hg body ?_, hc.imp_left (.of_plain_append hp.brace hp.last)⟩, ?_⟩
  · rw [fragments_plain_append hp.brace hp.last]
    exact List.mem_append_right _ hm
  · intro hm
    rw [String.toList_append]
    exact List.mem_append_right _ hm

theorem Brings.of_afterBlock? (h : Settled good rest line) :
    Brings good line rest ((Line.afterBlock? line).getD line) := by
  cases ha : Line.afterBlock? line with
  | none => exact h.brings
  | some after =>
    obtain ⟨before, rfl, hb⟩ := Line.afterBlock?_eq_some_iff.mp ha
    exact .of_append (Line.plain_mark hb) h

theorem Brings.of_itemizes {indent name description : String}
    (hi : ∀ c ∈ indent.toList, Text.isIndent c = true) (h : Settled good rest line)
    (hl : Line.Itemizes indent line name description) : Brings good line rest description := by
  obtain ⟨stars, word, rfl, hs, ⟨-, hw⟩, rfl⟩ := hl
  exact .of_append (Line.plain_item hi hs hw) h

theorem apart_of_pairwise {lines : List String}
    (hl : lines.Pairwise fun line later => Closed line.toList ∨ '}' ∉ later.toList)
    (hg : ∀ line ∈ lines, ∀ body, .token body ∈ fragments line.toList → good body) :
    Apart good lines := by
  induction lines with
  | nil => trivial
  | cons line rest ih =>
    obtain ⟨hline, hrest⟩ := List.pairwise_cons.mp hl
    obtain ⟨hgood, hg⟩ := List.forall_mem_cons.mp hg
    refine ⟨⟨hgood, ?_⟩, ih hrest hg⟩
    exact or_iff_not_imp_left.mpr fun hn later hm => (hline later hm).resolve_left hn

theorem apart_lines (ho : OneLine text.toList)
    (hg : ∀ body, .token body ∈ fragments text.toList → good body) :
    Apart good (Text.lines text) := by
  have hcut := Cut.of_oneLine ho
  apply apart_of_pairwise
  · rw [Text.lines, List.pairwise_map]
    simpa using hcut.pairwise
  · intro line hl body hm
    obtain ⟨cs, hcs, rfl⟩ := List.mem_map.mp hl
    rw [String.toList_ofList] at hm
    exact hg body (hcut.mem_fragments hcs hm)

theorem lines_text (ho : OneLine text.toList) :
    Text.lines (w.text text) = (Text.lines text).map w.text := by
  rw [Text.lines, w.toList_text, (Cut.of_oneLine ho).rewrite, Text.lines, List.map_map,
    List.map_map]
  congr 1
  funext line
  rw [Function.comp, Function.comp, Rewriter.text, String.toList_ofList]

theorem firstLine_text (ho : OneLine text.toList) :
    Text.firstLine (w.text text) = w.text (Text.firstLine text) := by
  rw [Text.firstLine, w.toList_text, (Cut.of_oneLine ho).takeWhile_rewrite, Rewriter.text,
    Text.firstLine, String.toList_ofList]

theorem Settled.firstLine {later : List String} (ho : OneLine s.toList) (h : Settled good later s) :
    ∀ body, .token body ∈ fragments (Text.firstLine s).toList → good body := by
  intro body hm
  obtain ⟨rest, hr⟩ := (Cut.of_oneLine ho).fragments_takeWhile
  rw [Text.firstLine, String.toList_ofList] at hm
  exact h.good body (hr ▸ List.mem_append_left _ hm)

end RefDoc.Docstring
