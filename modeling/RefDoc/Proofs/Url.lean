import RefDoc.Proofs.Path

namespace RefDoc.Url

def Absolute (path : String) : Prop := path.toList.head? = some '/'

def Trailing (path : String) : Prop := path.toList.getLast? = some '/'

instance (path : String) : Decidable (Absolute path) :=
  inferInstanceAs (Decidable (path.toList.head? = some '/'))

instance (path : String) : Decidable (Trailing path) :=
  inferInstanceAs (Decidable (path.toList.getLast? = some '/'))

/-- A segment that resolving may keep: a name or a step up. -/
def Lasting (segment : String) : Prop := segment ≠ "" ∧ segment ≠ "."

instance (segment : String) : Decidable (Lasting segment) :=
  inferInstanceAs (Decidable (segment ≠ "" ∧ segment ≠ "."))

variable {absolute : Bool} {base path path' segment part : String} {parts kept : List String}

theorem visit_of_not_lasting (h : ¬ Lasting segment) (kept : List String) :
    visit absolute kept segment = kept := by
  have hs : segment = "" ∨ segment = "." := by
    rwa [Lasting, not_and_or, not_not, not_not] at h
  simp only [visit, if_pos hs]

theorem mem_visit (h : part ∈ visit absolute kept segment) :
    part ∈ kept ∨ (part = segment ∧ Lasting segment) := by
  by_cases hl : Lasting segment
  · by_cases hu : segment = ".."
    · subst hu
      cases kept with
      | nil =>
        cases absolute with
        | true => cases h
        | false => exact .inr ⟨List.mem_singleton.mp h, hl⟩
      | cons top rest =>
        rw [visit_up_cons] at h
        split at h
        · obtain rfl | h := List.mem_cons.mp h
          · exact .inr ⟨rfl, hl⟩
          · exact .inl h
        · exact .inl (List.mem_cons_of_mem _ h)
    · rw [visit_named ⟨hl.1, hl.2, hu⟩] at h
      obtain rfl | h := List.mem_cons.mp h
      · exact .inr ⟨rfl, hl⟩
      · exact .inl h
  · rw [visit_of_not_lasting hl] at h
    exact .inl h

theorem mem_foldl_visit (h : part ∈ parts.foldl (visit absolute) kept) :
    part ∈ kept ∨ (part ∈ parts ∧ Lasting part) := by
  induction parts generalizing kept with
  | nil => exact .inl h
  | cons segment parts ih =>
    obtain hm | ⟨hm, hl⟩ := ih h
    · obtain hm | ⟨rfl, hl⟩ := mem_visit hm
      · exact .inl hm
      · exact .inr ⟨List.mem_cons_self, hl⟩
    · exact .inr ⟨List.mem_cons_of_mem _ hm, hl⟩

theorem mem_resolve (h : part ∈ resolve absolute parts) : part ∈ parts ∧ Lasting part := by
  obtain hm | hm := mem_foldl_visit (List.mem_reverse.mp h)
  · cases hm
  · exact hm

theorem foldl_visit_visit (hk : ∀ part ∈ kept, Lasting part) (segment : String)
    (stack : List String) :
    (visit false kept segment).reverse.foldl (visit absolute) stack =
      (kept.reverse ++ [segment]).foldl (visit absolute) stack := by
  by_cases hl : Lasting segment
  · by_cases hu : segment = ".."
    · subst hu
      cases kept with
      | nil => rfl
      | cons top rest =>
        rw [visit_up_cons]
        split
        · rw [List.reverse_cons]
        · next ht =>
          obtain ⟨he, hd⟩ := hk top List.mem_cons_self
          rw [List.reverse_cons, List.append_assoc, List.foldl_append, List.singleton_append,
            List.foldl_cons, List.foldl_cons, List.foldl_nil, visit_named ⟨he, hd, ht⟩,
            visit_up_cons, if_neg ht]
    · rw [visit_named ⟨hl.1, hl.2, hu⟩, List.reverse_cons]
  · rw [visit_of_not_lasting hl, List.foldl_append, List.foldl_cons, List.foldl_nil,
      visit_of_not_lasting hl]

/-- Going through resolved segments is going through the segments themselves. -/
theorem foldl_visit_resolve (parts stack : List String) :
    (resolve false parts).foldl (visit absolute) stack = parts.foldl (visit absolute) stack := by
  have hfold (kept : List String) (hk : ∀ part ∈ kept, Lasting part) :
      (parts.foldl (visit false) kept).reverse.foldl (visit absolute) stack =
        (kept.reverse ++ parts).foldl (visit absolute) stack := by
    induction parts generalizing kept with
    | nil => rw [List.append_nil, List.foldl_nil]
    | cons segment parts ih =>
      have hk' : ∀ part ∈ visit false kept segment, Lasting part := by
        intro part hm
        obtain hm | ⟨rfl, hl⟩ := mem_visit hm
        · exact hk part hm
        · exact hl
      rw [List.foldl_cons, ih _ hk', List.foldl_append, foldl_visit_visit hk, ← List.foldl_append,
        List.append_assoc, List.singleton_append]
  exact hfold [] nofun

theorem slash_not_mem_of_mem_segments (h : part ∈ segments path) : '/' ∉ part.toList := by
  obtain ⟨cs, hm, rfl⟩ := List.mem_map.mp h
  rw [String.toList_ofList]
  exact Text.not_mem_of_mem_splitAt hm

theorem segments_intercalate (hs : ∀ part ∈ parts, '/' ∉ part.toList) (hne : parts ≠ []) :
    segments (String.intercalate "/" parts) = parts := by
  rw [segments, String.toList_intercalate]
  change (Text.splitAt '/' (['/'].intercalate _)).map _ = _
  rw [Text.splitAt_intercalate]
  · rw [List.map_map]
    simp [Function.comp_def]
  · intro cs hm
    obtain ⟨part, hp, rfl⟩ := List.mem_map.mp hm
    exact hs part hp
  · simpa using hne

/-- Segments written as a path; if there are none it is a dot. -/
def written (kept : List String) : String := if kept = [] then "." else String.intercalate "/" kept

theorem segments_written (hs : ∀ part ∈ kept, '/' ∉ part.toList) :
    segments (written kept) = if kept = [] then ["."] else kept := by
  rw [written]
  split
  · decide
  · next hne => exact segments_intercalate hs hne

theorem normalize_eq_written (h : ¬ Absolute path) :
    normalize path =
      written (resolve false (segments path)) ++ if Trailing path then "/" else "" := by
  have ha : decide (path.toList.head? = some '/') = false := decide_eq_false h
  by_cases ht : Trailing path
  · have hl : decide (path.toList.getLast? = some '/') = true := decide_eq_true ht
    simp only [normalize, ha, hl, if_pos ht]
    cases resolve false (segments path) <;> rfl
  · have hl : decide (path.toList.getLast? = some '/') = false := decide_eq_false ht
    simp only [normalize, ha, hl, if_neg ht]
    cases resolve false (segments path) with
    | nil => rfl
    | cons part parts => exact congrArg (· ++ "") String.empty_append

theorem foldl_visit_segments_normalize (h : ¬ Absolute path) (stack : List String) :
    (segments (normalize path)).foldl (visit absolute) stack =
      (segments path).foldl (visit absolute) stack := by
  have hslash : ∀ part ∈ resolve false (segments path), '/' ∉ part.toList := by
    intro part hm
    exact slash_not_mem_of_mem_segments (mem_resolve hm).1
  have hwritten (stack : List String) :
      (segments (written (resolve false (segments path)))).foldl (visit absolute) stack =
        (segments path).foldl (visit absolute) stack := by
    rw [segments_written hslash, ← foldl_visit_resolve (segments path)]
    split
    · next hnil =>
      rw [hnil, List.foldl_cons, visit_of_not_lasting (by decide)]
    · rfl
  rw [normalize_eq_written h]
  split
  · have hlast (path : String) : segments (path ++ "/") = segments path ++ [""] := by
      have hs := segments_append_slash path ""
      rwa [String.append_empty] at hs
    rw [hlast, List.foldl_append, hwritten, List.foldl_cons, List.foldl_nil,
      visit_of_not_lasting (by decide)]
  · rw [String.append_empty, hwritten]

theorem segments_empty : segments "" = [""] := by decide

theorem segments_trailing (h : Trailing path) : (segments path).getLast? = some "" := by
  obtain ⟨cs, hcs⟩ := List.getLast?_eq_some_iff.mp h
  rw [segments, hcs, Text.splitAt_append_cons, List.map_append, Text.splitAt, List.map_singleton,
    List.getLast?_concat]

theorem not_absolute_append (h : "" ∉ segments base) (path : String) :
    ¬ Absolute (base ++ "/" ++ path) := by
  intro ha
  obtain ⟨cs, hcs⟩ := List.head?_eq_some_iff.mp ha
  have hs : segments (base ++ "/" ++ path) = "" :: (Text.splitAt '/' cs).map String.ofList := by
    rw [segments, hcs, Text.splitAt, if_pos rfl, List.map_cons]
  rw [segments_append_slash] at hs
  cases hb : segments base with
  | nil => exact Text.splitAt_ne_nil '/' base.toList (List.map_eq_nil_iff.mp hb)
  | cons first parts =>
    rw [hb, List.cons_append] at hs
    obtain ⟨rfl, -⟩ := List.cons.inj hs
    exact h (hb ▸ List.mem_cons_self)

theorem trailing_append (hne : path ≠ "") : Trailing (base ++ path) ↔ Trailing path := by
  have hl : path.toList ≠ [] := mt String.toList_eq_nil_iff.mp hne
  rw [Trailing, Trailing, String.toList_append, List.getLast?_append_of_ne_nil _ hl]

theorem absolute_append (path : String) :
    Absolute (base ++ "/" ++ path) ↔ Absolute (base ++ "/") := by
  rw [Absolute, Absolute, String.toList_append, List.head?_append_of_ne_nil]
  simp

theorem getLast?_written (h : ∀ part ∈ kept, '/' ∉ part.toList ∧ Lasting part) :
    (segments (written kept)).getLast? ≠ some "" := by
  rw [segments_written fun part hm => (h part hm).1]
  split
  · decide
  · intro hl
    exact (h "" (List.mem_of_getLast? hl)).2.1 rfl

theorem written_resolve (path : String) :
    written (resolve absolute (segments path)) ≠ "" ∧
      ¬ Trailing (written (resolve absolute (segments path))) := by
  have hlast : (segments (written (resolve absolute (segments path)))).getLast? ≠ some "" :=
    getLast?_written fun part hm =>
      ⟨slash_not_mem_of_mem_segments (mem_resolve hm).1, (mem_resolve hm).2⟩
  constructor
  · intro he
    rw [he, segments_empty] at hlast
    exact hlast rfl
  · exact mt segments_trailing hlast

theorem normalize_ne_empty (h : ¬ Absolute path) : normalize path ≠ "" := by
  intro he
  rw [normalize_eq_written h, String.append_eq_empty_iff] at he
  exact (written_resolve path).1 he.1

/-- A normal form keeps the slash at the end and gets none. -/
theorem trailing_normalize (h : ¬ Absolute path) : Trailing (normalize path) ↔ Trailing path := by
  rw [normalize_eq_written h]
  split
  · next ht => exact iff_of_true ((trailing_append (by decide)).mpr (by decide)) ht
  · next ht =>
    rw [String.append_empty]
    exact iff_of_false (written_resolve path).2 ht

theorem normalize_congr (ha : Absolute path ↔ Absolute path')
    (ht : Trailing path ↔ Trailing path')
    (hr : ∀ absolute, resolve absolute (segments path) = resolve absolute (segments path')) :
    normalize path = normalize path' := by
  have ha : decide (path.toList.head? = some '/') = decide (path'.toList.head? = some '/') :=
    decide_eq_decide.mpr ha
  have ht : decide (path.toList.getLast? = some '/') = decide (path'.toList.getLast? = some '/') :=
    decide_eq_decide.mpr ht
  simp only [normalize, ha, ht, hr]

/-- It makes no difference whether the end of a path is normalised first. -/
theorem normalize_append_normalize (base : String) (hne : path ≠ "") (h : ¬ Absolute path) :
    normalize (base ++ "/" ++ normalize path) = normalize (base ++ "/" ++ path) := by
  apply normalize_congr
  · rw [absolute_append, absolute_append]
  · rw [trailing_append (normalize_ne_empty h), trailing_append hne, trailing_normalize h]
  · intro absolute
    rw [resolve, resolve, segments_append_slash, segments_append_slash, List.foldl_append,
      List.foldl_append, foldl_visit_segments_normalize h]

/-- Directories that cancel out in front of a path make no difference. -/
theorem normalize_of_resolve_eq_nil (hb : ¬ Absolute (base ++ "/"))
    (hr : resolve false (segments base) = []) (hne : path ≠ "") (h : ¬ Absolute path) :
    normalize (base ++ "/" ++ path) = normalize path := by
  have hfold : (segments base).foldl (visit false) [] = [] := List.reverse_eq_nil_iff.mp hr
  have ha : ¬ Absolute (base ++ "/" ++ path) := by rwa [absolute_append]
  rw [normalize_eq_written ha, normalize_eq_written h, resolve, segments_append_slash,
    List.foldl_append, hfold]
  simp only [trailing_append hne]
  rfl

end RefDoc.Url
