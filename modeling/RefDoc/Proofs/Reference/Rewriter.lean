import RefDoc.Proofs.Reference.Token
import RefDoc.Proofs.Text.Lines

namespace RefDoc.Reference

/-- What is put in place of a token, by the body of the token. -/
structure Rewriter where
  link : List Char → List Char
  shape : ∀ body, ∃ tail, link body = '[' :: tail ∧ '\n' ∉ tail

namespace Rewriter

variable (w : Rewriter) {cs ds pre out body rest tail : List Char} {c : Char} {p : Char → Bool}

def piece : Fragment → List Char
  | .plain c => [c]
  | .token body => w.link body

def rewrite (cs : List Char) : List Char := (fragments cs).flatMap w.piece

@[simp] theorem rewrite_nil : w.rewrite [] = [] := by rw [rewrite, fragments_nil, List.flatMap_nil]

theorem rewrite_of_token? (h : token? cs = some (body, rest)) :
    w.rewrite cs = w.link body ++ w.rewrite rest := by
  rw [rewrite, fragments_of_token? h, List.flatMap_cons]
  rfl

theorem rewrite_of_not_token? (h : token? (c :: tail) = none) :
    w.rewrite (c :: tail) = c :: w.rewrite tail := by
  rw [rewrite, fragments_of_not_token? h, List.flatMap_cons]
  rfl

theorem rewrite_append (h : Closed cs ∨ '}' ∉ ds) :
    w.rewrite (cs ++ ds) = w.rewrite cs ++ w.rewrite ds := by
  rw [rewrite, fragments_append h, List.flatMap_append]
  rfl

/-- A text that holds no token, starts none that what follows could end, and holds no link. -/
structure Plain (cs : List Char) : Prop where
  brace : '{' ∉ cs
  bracket : '[' ∉ cs
  last : cs.getLast? ≠ some '@'

theorem Plain.append (hc : Plain cs) (hd : Plain ds) : Plain (cs ++ ds) where
  brace := by simp [hc.brace, hd.brace]
  bracket := by simp [hc.bracket, hd.bracket]
  last := by
    intro h
    obtain rfl | h := getLast?_of_append cs h
    · exact hc.last (by simpa using h)
    · exact hd.last h

theorem Plain.of_forall (hp : ∀ c ∈ cs, p c = true) (hb : p '{' = false) (hk : p '[' = false)
    (ha : p '@' = false) : Plain cs where
  brace h := by simp [hp _ h] at hb
  bracket h := by simp [hp _ h] at hk
  last h := by simp [hp _ (List.mem_of_getLast? h)] at ha

theorem rewrite_plain_append (h : Plain pre) (rest : List Char) :
    w.rewrite (pre ++ rest) = pre ++ w.rewrite rest := by
  rw [rewrite, fragments_plain_append h.brace h.last, List.flatMap_append, List.flatMap_map]
  exact congrArg (· ++ w.rewrite rest) (List.flatMap_singleton' pre)

theorem eq_append_of_rewrite (hn : '[' ∉ pre) (h : w.rewrite cs = pre ++ out) :
    ∃ rest, cs = pre ++ rest := by
  induction pre generalizing cs with
  | nil => exact ⟨cs, rfl⟩
  | cons c pre ih =>
    obtain ⟨hc, hpre⟩ := List.ne_and_not_mem_of_not_mem_cons hn
    cases cs with
    | nil => simp at h
    | cons d tail =>
      cases ht : token? (d :: tail) with
      | none =>
        rw [rewrite_of_not_token? w ht, List.cons_append, List.cons.injEq] at h
        obtain ⟨rest, rfl⟩ := ih hpre h.2
        exact ⟨rest, by rw [h.1, List.cons_append]⟩
      | some found =>
        obtain ⟨text, hl, -⟩ := w.shape found.1
        rw [rewrite_of_token? w ht, hl, List.cons_append, List.cons_append, List.cons.injEq] at h
        exact absurd h.1 hc

theorem rewrite_eq_append_iff (h : Plain pre) :
    w.rewrite cs = pre ++ out ↔ ∃ rest, cs = pre ++ rest ∧ w.rewrite rest = out := by
  constructor
  · intro he
    obtain ⟨rest, rfl⟩ := w.eq_append_of_rewrite h.bracket he
    rw [rewrite_plain_append w h] at he
    exact ⟨rest, rfl, List.append_cancel_left he⟩
  · intro hx
    obtain ⟨rest, rfl, rfl⟩ := hx
    exact rewrite_plain_append w h rest

theorem rewrite_eq_nil_iff : w.rewrite cs = [] ↔ cs = [] := by
  constructor
  · intro h
    cases cs with
    | nil => rfl
    | cons c tail =>
      cases ht : token? (c :: tail) with
      | none => simp [rewrite_of_not_token? w ht] at h
      | some found =>
        obtain ⟨text, hl, -⟩ := w.shape found.1
        simp [rewrite_of_token? w ht, hl] at h
  · rintro rfl
    exact w.rewrite_nil

theorem rewrite_eq_iff (h : Plain pre) : w.rewrite cs = pre ↔ cs = pre := by
  rw [← List.append_nil pre, rewrite_eq_append_iff w h, List.append_nil]
  simp [rewrite_eq_nil_iff]

theorem takeWhile_rewrite (ha : p '@' = false) (hb : p '[' = false) (cs : List Char) :
    (w.rewrite cs).takeWhile p = cs.takeWhile p := by
  fun_induction fragments cs with
  | case1 => rw [rewrite_nil]
  | case2 c tail body rest ht ih =>
    obtain ⟨text, hl, -⟩ := w.shape body
    obtain ⟨he, -⟩ := token?_eq_some_iff.mp ht
    rw [rewrite_of_token? w ht, hl, he]
    simp [ha, hb]
  | case3 c tail ht ih =>
    rw [rewrite_of_not_token? w ht, List.takeWhile_cons, List.takeWhile_cons, ih]

theorem dropWhile_rewrite (ha : p '@' = false) (hb : p '[' = false) (cs : List Char) :
    (w.rewrite cs).dropWhile p = w.rewrite (cs.dropWhile p) := by
  fun_induction fragments cs with
  | case1 => rw [rewrite_nil, List.dropWhile_nil, rewrite_nil]
  | case2 c tail body rest ht ih =>
    obtain ⟨text, hl, -⟩ := w.shape body
    obtain ⟨he, -⟩ := token?_eq_some_iff.mp ht
    have hd : (c :: tail).dropWhile p = c :: tail := by
      rw [he]
      simp [ha]
    rw [hd, rewrite_of_token? w ht, hl]
    simp [hb]
  | case3 c tail ht ih =>
    rw [rewrite_of_not_token? w ht, List.dropWhile_cons, List.dropWhile_cons, ih]
    split
    · rfl
    · rw [rewrite_of_not_token? w ht]

theorem rewrite_newline (cs : List Char) : w.rewrite (cs ++ ['\n']) = w.rewrite cs ++ ['\n'] := by
  have hp : Plain ['\n'] := ⟨by decide, by decide, by decide⟩
  rw [rewrite_append w (.inr (by simp)), (w.rewrite_eq_iff hp).mpr rfl]

theorem newline_not_mem_rewrite (h : '\n' ∉ cs) : '\n' ∉ w.rewrite cs := by
  fun_induction fragments cs with
  | case1 => simp
  | case2 c tail body rest ht ih =>
    obtain ⟨text, hl, hn⟩ := w.shape body
    obtain ⟨he, -⟩ := token?_eq_some_iff.mp ht
    have hr : '\n' ∉ rest := fun hm => h (by simp [he, hm])
    simp [rewrite_of_token? w ht, hl, hn, ih hr]
  | case3 c tail ht ih =>
    obtain ⟨hc, htail⟩ := List.ne_and_not_mem_of_not_mem_cons h
    rw [rewrite_of_not_token? w ht]
    exact List.not_mem_cons_of_ne_of_not_mem hc (ih htail)

def text (s : String) : String := String.ofList (w.rewrite s.toList)

section

variable {s pre out : String}

theorem toList_text (s : String) : (w.text s).toList = w.rewrite s.toList := String.toList_ofList

@[simp] theorem text_empty : w.text "" = "" := by rw [text, String.toList_empty, rewrite_nil]

theorem text_eq_append_iff (h : Plain pre.toList) :
    w.text s = pre ++ out ↔ ∃ rest, s = pre ++ rest ∧ w.text rest = out := by
  rw [← String.toList_inj, toList_text, String.toList_append, rewrite_eq_append_iff w h]
  constructor
  · intro hx
    obtain ⟨rest, hs, hr⟩ := hx
    refine ⟨String.ofList rest, String.toList_inj.mp ?_, String.toList_inj.mp ?_⟩
    · rw [hs, String.toList_append, String.toList_ofList]
    · rw [toList_text, String.toList_ofList, hr]
  · intro hx
    obtain ⟨rest, rfl, rfl⟩ := hx
    exact ⟨rest.toList, String.toList_append, (toList_text w rest).symm⟩

theorem text_eq_iff (h : Plain pre.toList) : w.text s = pre ↔ s = pre := by
  rw [← String.toList_inj, toList_text, rewrite_eq_iff w h, String.toList_inj]

end

end Rewriter

/-- A text cut into lines, where no line closes a token that an earlier line leaves open. -/
inductive Cut : List Char → List (List Char) → Prop
  | nil : Cut [] []
  | last {line : List Char} (hne : line ≠ []) (hn : '\n' ∉ line) : Cut line [line]
  | cons {line rest : List Char} {lines : List (List Char)} (hn : '\n' ∉ line)
    (hc : Closed (line ++ ['\n']) ∨ '}' ∉ rest) (hr : Cut rest lines) :
    Cut (line ++ ['\n'] ++ rest) ((line ++ ['\n']) :: lines)

namespace Cut

variable {cs line : List Char} {c : Char} {lines : List (List Char)}

theorem of_oneLine {cs : List Char} (ho : OneLine cs) : Cut cs (Text.splitLines cs) := by
  obtain rfl | ⟨hne, hn, hs⟩ | ⟨line, rest, hn, he, hs⟩ := Text.splitLines_cases cs
  · exact .nil
  · rw [hs]
    exact .last hne hn
  · have he' : cs = line ++ ['\n'] ++ rest := by rw [he, List.append_assoc, List.singleton_append]
    rw [he'] at ho
    have hc : Closed (line ++ ['\n']) ∨ '}' ∉ rest := closed_or_not_mem (.inr (by simp)) ho
    have hr : OneLine rest := by
      intro body hm
      apply ho body
      rw [fragments_append hc]
      exact List.mem_append_right _ hm
    rw [hs, he']
    exact .cons hn hc (of_oneLine hr)
termination_by cs.length
decreasing_by
  simp only [he, List.length_append, List.length_cons]
  omega

theorem splitLines_eq (h : Cut cs lines) : Text.splitLines cs = lines := by
  induction h with
  | nil => rfl
  | last hne hn => exact Text.splitLines_of_not_mem hne hn
  | cons hn hc hr ih =>
    rw [List.append_assoc, List.singleton_append, Text.splitLines_append_newline hn, ih]

theorem rewrite (w : Rewriter) (h : Cut cs lines) :
    Text.splitLines (w.rewrite cs) = lines.map w.rewrite := by
  induction h with
  | nil =>
    rw [w.rewrite_nil]
    rfl
  | last hne hn =>
    exact Text.splitLines_of_not_mem (mt w.rewrite_eq_nil_iff.mp hne) (w.newline_not_mem_rewrite hn)
  | @cons line rest lines hn hc hr ih =>
    rw [w.rewrite_append hc, List.map_cons, w.rewrite_newline, List.append_assoc,
      List.singleton_append, Text.splitLines_append_newline (w.newline_not_mem_rewrite hn), ih]

theorem mem_fragments {fragment : Fragment} (h : Cut cs lines) (hl : line ∈ lines)
    (hm : fragment ∈ fragments line) : fragment ∈ fragments cs := by
  induction h with
  | nil => cases hl
  | last hne hn => rwa [← List.mem_singleton.mp hl]
  | cons hn hc hr ih =>
    rw [fragments_append hc, List.mem_append]
    obtain rfl | hl := List.mem_cons.mp hl
    · exact .inl hm
    · exact .inr (ih hl)

theorem mem_of_mem_line (h : Cut cs lines) (hl : line ∈ lines) (hm : c ∈ line) : c ∈ cs := by
  rw [← Text.flatten_splitLines cs, h.splitLines_eq]
  exact List.mem_flatten.mpr ⟨line, hl, hm⟩

theorem pairwise (h : Cut cs lines) :
    lines.Pairwise fun line later => Closed line ∨ '}' ∉ later := by
  induction h with
  | nil => exact .nil
  | last hne hn => exact List.pairwise_singleton _ _
  | cons hn hc hr ih =>
    exact .cons (fun later hl => hc.imp_right (mt (hr.mem_of_mem_line hl))) ih

theorem fragments_takeWhile (h : Cut cs lines) :
    ∃ rest, fragments cs = fragments (cs.takeWhile (· != '\n')) ++ rest := by
  cases h with
  | nil => exact ⟨[], (List.append_nil _).symm⟩
  | last hne hn => exact ⟨[], by rw [Text.takeWhile_of_not_mem hn, List.append_nil]⟩
  | @cons line rest lines hn hc hr =>
    refine ⟨fragments ['\n'] ++ fragments rest, ?_⟩
    rw [fragments_append hc, fragments_append_of_not_mem (by simp), List.append_assoc,
      List.append_assoc, List.singleton_append, Text.takeWhile_append_newline hn]

theorem takeWhile_rewrite (w : Rewriter) (h : Cut cs lines) :
    (w.rewrite cs).takeWhile (· != '\n') = w.rewrite (cs.takeWhile (· != '\n')) := by
  cases h with
  | nil => rw [w.rewrite_nil, List.takeWhile_nil, w.rewrite_nil]
  | last hne hn =>
    rw [Text.takeWhile_of_not_mem hn, Text.takeWhile_of_not_mem (w.newline_not_mem_rewrite hn)]
  | cons hn hc hr =>
    rw [w.rewrite_append hc, w.rewrite_newline, List.append_assoc, List.append_assoc,
      List.singleton_append, List.singleton_append, Text.takeWhile_append_newline hn,
      Text.takeWhile_append_newline (w.newline_not_mem_rewrite hn)]

end Cut

end RefDoc.Reference
