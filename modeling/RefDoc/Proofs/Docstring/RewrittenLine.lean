import RefDoc.Docstring.Machine
import RefDoc.Proofs.Docstring.Line
import RefDoc.Proofs.Reference.Rewriter

namespace RefDoc.Docstring

open Reference

namespace Line

variable (w : Rewriter) {line word target rest indent name description : String}

theorem heads_text : Heads (w.text line) word ↔ Heads line word := by
  refine and_congr_left fun h => Rewriter.text_eq_iff w ?_
  rw [String.toList_append]
  exact .append (.of_forall h.2 rfl rfl rfl) ⟨by decide, by decide, by decide⟩

theorem opens_text : Opens (w.text line) target ↔ Opens line target := by
  refine exists_congr fun before => exists_congr fun after => exists_congr fun ending =>
    and_congr_left fun ⟨hb, ⟨_, ht⟩, ha, he⟩ => Rewriter.text_eq_iff w ?_
  have hending : Rewriter.Plain ending.toList := by
    obtain rfl | rfl := he <;> exact ⟨by decide, by decide, by decide⟩
  simp only [String.toList_append]
  refine .append (.append (.append (.append (.append ?_ ?_) ?_) ?_) ?_) hending
  · exact .of_forall hb rfl rfl rfl
  · exact ⟨by decide, by decide, by decide⟩
  · exact .of_forall ht rfl rfl rfl
  · exact ⟨by decide, by decide, by decide⟩
  · exact .of_forall ha rfl rfl rfl

theorem plain_mark {before : String} (hb : ∀ c ∈ before.toList, Text.isBlank c = true) :
    Rewriter.Plain (before ++ "@end_compatibility").toList := by
  rw [String.toList_append]
  exact .append (.of_forall hb rfl rfl rfl) ⟨by decide, by decide, by decide⟩

theorem closes_text :
    Closes (w.text line) rest ↔ ∃ rest', Closes line rest' ∧ w.text rest' = rest := by
  constructor
  · intro hx
    obtain ⟨before, hl, hb⟩ := hx
    obtain ⟨rest', he, hr⟩ := (w.text_eq_append_iff (plain_mark hb)).mp hl
    exact ⟨rest', ⟨before, he, hb⟩, hr⟩
  · intro hx
    obtain ⟨rest', ⟨before, he, hb⟩, hr⟩ := hx
    exact ⟨before, (w.text_eq_append_iff (plain_mark hb)).mpr ⟨rest', he, hr⟩, hb⟩

theorem plain_item {stars : String} (hi : ∀ c ∈ indent.toList, Text.isIndent c = true)
    (hs : stars ∈ ["", "*", "**"]) (hw : ∀ c ∈ word.toList, Text.isWord c = true) :
    Rewriter.Plain (indent ++ (stars ++ word) ++ ":").toList := by
  have hstars : Rewriter.Plain stars.toList := by
    simp only [List.mem_cons, List.not_mem_nil, or_false] at hs
    obtain rfl | rfl | rfl := hs <;> exact ⟨by decide, by decide, by decide⟩
  simp only [String.toList_append]
  refine .append (.append (.of_forall hi rfl rfl rfl) (.append hstars ?_)) ?_
  · exact .of_forall hw rfl rfl rfl
  · exact ⟨by decide, by decide, by decide⟩

theorem itemizes_text (hi : ∀ c ∈ indent.toList, Text.isIndent c = true) :
    Itemizes indent (w.text line) name description ↔ ∃ description',
      Itemizes indent line name description' ∧ w.text description' = description := by
  constructor
  · intro hx
    obtain ⟨stars, word, rfl, hs, hw, hl⟩ := hx
    obtain ⟨description', he, hd⟩ := (w.text_eq_append_iff (plain_item hi hs hw.2)).mp hl
    exact ⟨description', ⟨stars, word, rfl, hs, hw, he⟩, hd⟩
  · intro hx
    obtain ⟨description', ⟨stars, word, rfl, hs, hw, he⟩, hd⟩ := hx
    have hl := (w.text_eq_append_iff (plain_item hi hs hw.2)).mpr ⟨description', he, hd⟩
    exact ⟨stars, word, rfl, hs, hw, hl⟩

theorem isBlank_text (line : String) : isBlank (w.text line) = isBlank line := by
  rw [Bool.eq_iff_iff, isBlank, isBlank, List.all_eq_true, List.all_eq_true,
    ← List.dropWhile_eq_nil_iff, ← List.dropWhile_eq_nil_iff, w.toList_text,
    w.dropWhile_rewrite rfl rfl, w.rewrite_eq_nil_iff]

theorem indent_text (line : String) : Line.indent (w.text line) = Line.indent line := by
  rw [Line.indent, w.toList_text, w.takeWhile_rewrite rfl rfl]
  rfl

theorem keyword?_text (keywords : Option (List String)) (line : String) :
    keyword? keywords (w.text line) = keyword? keywords line := by
  have hh : header? (w.text line) = header? line :=
    Option.ext fun word => by rw [header?_eq_some_iff, header?_eq_some_iff, heads_text]
  rw [keyword?, hh, keyword?]

theorem blockTarget?_text (line : String) : blockTarget? (w.text line) = blockTarget? line :=
  Option.ext fun target => by rw [blockTarget?_eq_some_iff, blockTarget?_eq_some_iff, opens_text]

theorem afterBlock?_text (line : String) :
    afterBlock? (w.text line) = (afterBlock? line).map w.text :=
  Option.ext fun rest => by
    rw [afterBlock?_eq_some_iff, closes_text, Option.map_eq_some_iff]
    simp only [afterBlock?_eq_some_iff]

theorem closesBlock_text (line : String) : closesBlock (w.text line) = closesBlock line := by
  rw [closesBlock, afterBlock?_text, Option.isSome_map, closesBlock]

theorem item?_text (hi : ∀ c ∈ indent.toList, Text.isIndent c = true) (line : String) :
    item? indent (w.text line) = (item? indent line).map (Prod.map id w.text) :=
  Option.ext fun (name, description) => by
    rw [item?_eq_some_iff, itemizes_text w hi, Option.map_eq_some_iff]
    constructor
    · intro hx
      obtain ⟨description', hd, rfl⟩ := hx
      exact ⟨(name, description'), item?_eq_some_iff.mpr hd, rfl⟩
    · intro hx
      obtain ⟨⟨name', description'⟩, hd, he⟩ := hx
      cases he
      exact ⟨description', item?_eq_some_iff.mp hd, rfl⟩

end Line

theorem itemIndent_text (w : Rewriter) (keywords : Option (List String)) (lines : List String) :
    itemIndent keywords (lines.map w.text) = itemIndent keywords lines := by
  induction lines with
  | nil => rfl
  | cons line rest ih =>
    rw [List.map_cons, itemIndent, itemIndent, Line.keyword?_text, Line.isBlank_text,
      Line.indent_text, ih]

theorem isIndent_of_mem_itemIndent {keywords : Option (List String)} {lines : List String}
    {c : Char} (h : c ∈ (itemIndent keywords lines).toList) : Text.isIndent c = true := by
  induction lines with
  | nil => cases h
  | cons line rest ih =>
    rw [itemIndent] at h
    split at h
    · cases h
    · split at h
      · exact ih h
      · rw [Line.indent, String.toList_ofList] at h
        exact List.mem_takeWhile_imp h

theorem block?_text (w : Rewriter) (line : String) (rest : List String) :
    block? (w.text line) (rest.map w.text) = block? line rest := by
  have hc : Line.closesBlock ∘ w.text = Line.closesBlock := funext (Line.closesBlock_text w)
  rw [block?, Line.blockTarget?_text, List.findIdx?_map, hc, block?]

end RefDoc.Docstring
