import Mathlib.Data.List.TakeWhile
import RefDoc.Docstring.Line

namespace RefDoc.Docstring.Line

/-- A line that heads a section: a capitalised word and a colon, and nothing else. -/
def Heads (line word : String) : Prop :=
  line = word ++ ":\n" ∧ word.toList.head?.any Char.isUpper = true ∧
    ∀ c ∈ word.toList, Text.isWord c = true

/-- A line that starts a compatibility block: the mark around its target, and blanks. -/
def Opens (line target : String) : Prop :=
  ∃ before after ending : String,
    line = before ++ "@compatibility(" ++ target ++ ")" ++ after ++ ending ∧
    (∀ c ∈ before.toList, Text.isIndent c = true) ∧
    (target ≠ "" ∧ ∀ c ∈ target.toList, Text.isWord c = true) ∧
    (∀ c ∈ after.toList, Text.isIndent c = true) ∧ (ending = "" ∨ ending = "\n")

/-- A line that ends a compatibility block, with what it holds behind the mark. -/
def Closes (line rest : String) : Prop :=
  ∃ before : String, line = before ++ "@end_compatibility" ++ rest ∧
    ∀ c ∈ before.toList, Text.isBlank c = true

/-- A line that starts an item: the indent, a word with up to two stars before it, and a colon. -/
def Itemizes (indent line name description : String) : Prop :=
  ∃ stars word : String, name = stars ++ word ∧ stars ∈ ["", "*", "**"] ∧
    (word ≠ "" ∧ ∀ c ∈ word.toList, Text.isWord c = true) ∧
    line = indent ++ name ++ ":" ++ description

theorem takeWhile_append_stop {p : Char → Bool} {xs ys : List Char} (hx : ∀ c ∈ xs, p c = true)
    (hy : ys.head?.all (! p ·) = true) : (xs ++ ys).takeWhile p = xs := by
  rw [List.takeWhile_append_of_pos hx]
  cases ys with
  | nil => simp
  | cons y ys => simp_all

theorem dropWhile_append_stop {p : Char → Bool} {xs ys : List Char} (hx : ∀ c ∈ xs, p c = true)
    (hy : ys.head?.all (! p ·) = true) : (xs ++ ys).dropWhile p = ys := by
  rw [List.dropWhile_append_of_pos hx]
  cases ys with
  | nil => rfl
  | cons y ys => simp_all

theorem header?_eq_some_iff {line word : String} : header? line = some word ↔ Heads line word := by
  constructor
  · intro h
    rw [header?] at h
    split at h
    · next hw =>
      obtain rfl := Option.some.inj h
      refine ⟨String.toList_inj.mp ?_, ?_, ?_⟩
      · have hl := List.takeWhile_append_dropWhile (p := Text.isWord) (l := line.toList)
        rw [hw.2] at hl
        simpa [String.toList_append] using hl.symm
      · simpa using hw.1
      · simpa using fun c hc => List.mem_takeWhile_imp hc
    · cases h
  · intro hx
    obtain ⟨rfl, hu, hw⟩ := hx
    have ht : (word ++ ":\n").toList.takeWhile Text.isWord = word.toList := by
      rw [String.toList_append]
      exact takeWhile_append_stop hw rfl
    have hd : (word ++ ":\n").toList.dropWhile Text.isWord = [':', '\n'] := by
      rw [String.toList_append]
      exact dropWhile_append_stop hw rfl
    simp only [header?, ht, hd, hu, and_self, ↓reduceIte, String.ofList_toList]

theorem afterBlock?_eq_some_iff {line rest : String} :
    afterBlock? line = some rest ↔ Closes line rest := by
  rw [afterBlock?, Option.map_eq_some_iff]
  constructor
  · intro hx
    obtain ⟨cs, hc, rfl⟩ := hx
    refine ⟨String.ofList (line.toList.takeWhile Text.isBlank), String.toList_inj.mp ?_, ?_⟩
    · have hl := List.takeWhile_append_dropWhile (p := Text.isBlank) (l := line.toList)
      rw [behind?_eq_some_iff.mp hc] at hl
      simpa [String.toList_append] using hl.symm
    · simpa using fun c hc => List.mem_takeWhile_imp hc
  · intro hx
    obtain ⟨before, rfl, hb⟩ := hx
    refine ⟨rest.toList, behind?_eq_some_iff.mpr ?_, String.ofList_toList⟩
    rw [String.toList_append, String.toList_append, List.append_assoc]
    exact dropWhile_append_stop hb rfl

theorem blockTarget?_eq_some_iff {line target : String} :
    blockTarget? line = some target ↔ Opens line target := by
  constructor
  · intro h
    simp only [blockTarget?, Option.bind_eq_bind, Option.bind_eq_some_iff,
      Option.ite_none_right_eq_some, Option.some.injEq, behind?_eq_some_iff] at h
    obtain ⟨cs, hc, rest, hr, ⟨hw, he⟩, rfl⟩ := h
    refine ⟨String.ofList (line.toList.takeWhile Text.isIndent),
      String.ofList (rest.takeWhile Text.isIndent),
      String.ofList (rest.dropWhile Text.isIndent), String.toList_inj.mp ?_, ?_, ?_, ?_, ?_⟩
    · have hl := List.takeWhile_append_dropWhile (p := Text.isIndent) (l := line.toList)
      have hcs := List.takeWhile_append_dropWhile (p := Text.isWord) (l := cs)
      have hrs := List.takeWhile_append_dropWhile (p := Text.isIndent) (l := rest)
      rw [hc, ← hcs, hr, ← hrs] at hl
      simpa [String.toList_append] using hl.symm
    · simpa using fun c hc => List.mem_takeWhile_imp hc
    · refine ⟨by simpa using hw, ?_⟩
      simpa using fun c hc => List.mem_takeWhile_imp hc
    · simpa using fun c hc => List.mem_takeWhile_imp hc
    · simpa [← String.toList_inj] using he
  · intro hx
    obtain ⟨before, after, ending, rfl, hb, ⟨hne, ht⟩, ha, he⟩ := hx
    have hend : ending.toList.dropWhile Text.isIndent = ending.toList := by
      obtain rfl | rfl := he <;> rfl
    have hline : (before ++ "@compatibility(" ++ target ++ ")" ++ after ++ ending).toList.dropWhile
        Text.isIndent =
          "@compatibility(".toList ++ (target.toList ++ ')' :: (after ++ ending).toList) := by
      simp only [String.toList_append, List.append_assoc]
      exact dropWhile_append_stop hb rfl
    have hcs := behind?_eq_some_iff.mpr hline
    have htake : (target.toList ++ ')' :: (after ++ ending).toList).takeWhile Text.isWord =
        target.toList := takeWhile_append_stop ht rfl
    have hdrop : (target.toList ++ ')' :: (after ++ ending).toList).dropWhile Text.isWord =
        ')' :: (after ++ ending).toList := dropWhile_append_stop ht rfl
    have hafter : (after ++ ending).toList.dropWhile Text.isIndent = ending.toList := by
      rw [String.toList_append, List.dropWhile_append_of_pos ha, hend]
    have hword : target.toList ≠ [] := by simpa using hne
    have hstop : ending.toList = [] ∨ ending.toList = ['\n'] := by
      obtain rfl | rfl := he
      · exact .inl rfl
      · exact .inr rfl
    simp only [blockTarget?, Option.bind_eq_bind, hcs, Option.bind_some, htake, hdrop, behind?,
      ↓reduceIte, hafter, hword, hstop, ne_eq, not_false_eq_true, and_self, String.ofList_toList]

theorem stars_mem (cs : List Char) :
    String.ofList ((cs.take 2).takeWhile (· == '*')) ∈ ["", "*", "**"] := by
  match cs with
  | [] => simp
  | [a] => by_cases ha : a = '*' <;> simp [ha]
  | a :: b :: _ => by_cases ha : a = '*' <;> by_cases hb : b = '*' <;> simp [ha, hb]

theorem stars_append {stars cs : List Char} (hs : String.ofList stars ∈ ["", "*", "**"])
    (hc : cs.head?.any Text.isWord = true) :
    ((stars ++ cs).take 2).takeWhile (· == '*') = stars := by
  cases cs with
  | nil => cases hc
  | cons c cs =>
    have hne : c ≠ '*' := by
      rintro rfl
      cases hc
    simp only [List.mem_cons, ← String.toList_inj, String.toList_ofList, List.not_mem_nil,
      or_false] at hs
    obtain rfl | rfl | rfl := hs <;> simp [hne]

theorem item?_eq_some_iff {indent line name description : String} :
    item? indent line = some (name, description) ↔ Itemizes indent line name description := by
  constructor
  · intro h
    simp only [item?, Option.bind_eq_bind, Option.bind_eq_some_iff, Option.ite_none_right_eq_some,
      Option.some.injEq, Prod.mk.injEq, behind?_eq_some_iff] at h
    obtain ⟨cs, hc, rest, hr, hw, rfl, rfl⟩ := h
    have hs := List.prefix_iff_eq_append.mp
      ((List.takeWhile_prefix (· == '*')).trans (List.take_prefix 2 cs))
    generalize hst : (cs.take 2).takeWhile (· == '*') = stars at *
    refine ⟨String.ofList stars, String.ofList ((cs.drop stars.length).takeWhile Text.isWord),
      String.ofList_append, hst ▸ stars_mem cs, ⟨by simpa using hw, ?_⟩, String.toList_inj.mp ?_⟩
    · simpa using fun c hc => List.mem_takeWhile_imp hc
    · have hws := List.takeWhile_append_dropWhile (p := Text.isWord) (l := cs.drop stars.length)
      rw [hr] at hws
      rw [← hs, ← hws] at hc
      simpa [String.toList_append] using hc
  · intro hx
    obtain ⟨stars, word, rfl, hs, ⟨hne, hw⟩, rfl⟩ := hx
    obtain ⟨c, cs, hword⟩ := List.exists_cons_of_ne_nil (mt String.toList_eq_nil_iff.mp hne)
    have hline : behind? indent.toList (indent ++ (stars ++ word) ++ ":" ++ description).toList =
        some (stars.toList ++ (word.toList ++ ':' :: description.toList)) :=
      behind?_eq_some_iff.mpr (by simp [String.toList_append])
    have hstars : ((stars.toList ++ (word.toList ++ ':' :: description.toList)).take 2).takeWhile
        (· == '*') = stars.toList := by
      apply stars_append
      · rwa [String.ofList_toList]
      · simp [hword, hw c (by simp [hword])]
    have htake : (word.toList ++ ':' :: description.toList).takeWhile Text.isWord = word.toList :=
      takeWhile_append_stop hw rfl
    have hdrop : (word.toList ++ ':' :: description.toList).dropWhile Text.isWord =
        ':' :: description.toList := dropWhile_append_stop hw rfl
    have hnil : word.toList ≠ [] := by simp [hword]
    simp only [item?, Option.bind_eq_bind, hline, Option.bind_some, hstars, List.drop_left, htake,
      hdrop, behind?, ↓reduceIte, hnil, ne_eq, not_false_eq_true, ← String.toList_append,
      String.ofList_toList]

end RefDoc.Docstring.Line
