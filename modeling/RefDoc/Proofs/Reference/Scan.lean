import RefDoc.Proofs.Reference.Grammar
import RefDoc.Proofs.Reference.Replace

namespace RefDoc

open Reference

namespace Reference

variable {cs before body after tail : List Char} {c : Char}

/-- Whether a token stands between two parts of a text. -/
structure TokenAt (cs before body after : List Char) : Prop where
  eq : cs = before ++ (Fragment.token body).source ++ after
  ne : body ≠ []
  brace : '}' ∉ body

/-- A token, and what stands between it and the token read before it. -/
structure Part where
  gap : List Char
  body : List Char
  deriving DecidableEq

namespace Part

def token (part : Part) : String := String.ofList (Fragment.token part.body).source

def fragments (part : Part) : List Fragment := part.gap.map .plain ++ [.token part.body]

end Part

/-- A text read from the left: its tokens, and what is left behind the last one. -/
inductive Scan : List Char → List Part → List Char → Prop
  | done {cs : List Char} (hn : ∀ before body after, ¬ TokenAt cs before body after) : Scan cs [] cs
  | next {cs gap body rest last : List Char} {parts : List Part} (ht : TokenAt cs gap body rest)
    (hleft : ∀ before inner after, TokenAt cs before inner after → gap.length ≤ before.length)
    (hr : Scan rest parts last) : Scan cs (⟨gap, body⟩ :: parts) last

theorem tokenAt_iff : TokenAt cs before body after ↔
    ∃ tail, cs = before ++ tail ∧ token? tail = some (body, after) := by
  constructor
  · intro h
    refine ⟨(Fragment.token body).source ++ after, by rw [h.eq, List.append_assoc], ?_⟩
    exact token?_eq_some_iff.mpr ⟨by simp [Fragment.source], h.ne, h.brace⟩
  · intro h
    obtain ⟨tail, rfl, ht⟩ := h
    obtain ⟨rfl, hne, hb⟩ := eq_of_token? ht
    exact ⟨(List.append_assoc _ _ _).symm, hne, hb⟩

theorem not_tokenAt_nil : ¬ TokenAt [] before body after := by
  intro h
  simpa [Fragment.source] using h.eq

theorem tokenAt_cons_iff (hn : token? (c :: tail) = none) : TokenAt (c :: tail) before body after ↔
    ∃ inner, before = c :: inner ∧ TokenAt tail inner body after := by
  simp only [tokenAt_iff]
  constructor
  · intro h
    obtain ⟨found, he, ht⟩ := h
    cases before with
    | nil =>
      rw [List.nil_append] at he
      rw [← he, hn] at ht
      cases ht
    | cons d inner =>
      obtain ⟨rfl, rfl⟩ := List.cons.inj he
      exact ⟨inner, rfl, found, rfl, ht⟩
  · intro h
    obtain ⟨inner, rfl, found, rfl, ht⟩ := h
    exact ⟨found, rfl, ht⟩

def reading : List Fragment → List Part × List Char
  | [] => ([], [])
  | .token body :: rest => (⟨[], body⟩ :: (reading rest).1, (reading rest).2)
  | .plain c :: rest =>
    match reading rest with
    | ([], last) => ([], c :: last)
    | (part :: parts, last) => (⟨c :: part.gap, part.body⟩ :: parts, last)

theorem Scan.token {parts : List Part} {last : List Char} (ht : token? cs = some (body, after))
    (hr : Scan after parts last) : Scan cs (⟨[], body⟩ :: parts) last :=
  .next (tokenAt_iff.mpr ⟨cs, rfl, ht⟩) (fun _ _ _ _ => Nat.zero_le _) hr

theorem Scan.plain_done (hn : token? (c :: tail) = none) (h : Scan tail [] body) :
    Scan (c :: tail) [] (c :: body) := by
  cases h with
  | done ht =>
    apply Scan.done
    intro before inner after h
    obtain ⟨between, -, hlater⟩ := (tokenAt_cons_iff hn).mp h
    exact ht between inner after hlater

theorem Scan.plain_next {part : Part} {parts : List Part} {last : List Char}
    (hn : token? (c :: tail) = none) (h : Scan tail (part :: parts) last) :
    Scan (c :: tail) (⟨c :: part.gap, part.body⟩ :: parts) last := by
  cases h with
  | next ht hleft hr =>
    apply Scan.next ((tokenAt_cons_iff hn).mpr ⟨_, rfl, ht⟩) _ hr
    intro before inner after h
    obtain ⟨between, rfl, hlater⟩ := (tokenAt_cons_iff hn).mp h
    exact Nat.succ_le_succ (hleft between inner after hlater)

theorem scan_reading (cs : List Char) :
    Scan cs (reading (fragments cs)).1 (reading (fragments cs)).2 := by
  fun_induction fragments cs with
  | case1 => exact .done fun _ _ _ => not_tokenAt_nil
  | case2 c tail body rest ht ih => exact .token ht ih
  | case3 c tail ht ih =>
    rw [reading]
    cases hr : reading (fragments tail) with
    | mk parts last =>
      rw [hr] at ih
      cases parts with
      | nil => exact .plain_done ht ih
      | cons part parts => exact .plain_next ht ih

theorem Scan.unique {parts others : List Part} {last other : List Char} (h : Scan cs parts last)
    (h' : Scan cs others other) : parts = others ∧ last = other := by
  induction h generalizing others other with
  | done hn =>
    cases h' with
    | done => exact ⟨rfl, rfl⟩
    | next ht => exact absurd ht (hn _ _ _)
  | @next cs gap body rest last parts ht hleft hr ih =>
    cases h' with
    | done hn => exact absurd ht (hn _ _ _)
    | @next _ gap' body' rest' _ parts' ht' hleft' hr' =>
      have hlength := Nat.le_antisymm (hleft _ _ _ ht') (hleft' _ _ _ ht)
      obtain ⟨tail, he, hs⟩ := tokenAt_iff.mp ht
      obtain ⟨tail', he', hs'⟩ := tokenAt_iff.mp ht'
      obtain ⟨rfl, rfl⟩ := List.append_inj (he.symm.trans he') hlength
      cases hs.symm.trans hs'
      obtain ⟨rfl, rfl⟩ := ih hr'
      exact ⟨rfl, rfl⟩

theorem fragments_gap_append {gap : List Char} (hleft : ∀ before inner after,
    TokenAt (gap ++ tail) before inner after → gap.length ≤ before.length) :
    fragments (gap ++ tail) = gap.map .plain ++ fragments tail := by
  induction gap with
  | nil => rfl
  | cons c gap ih =>
    rw [List.cons_append] at hleft ⊢
    have hn : token? (c :: (gap ++ tail)) = none := by
      rw [Option.eq_none_iff_forall_ne_some]
      rintro ⟨inner, after⟩ ht
      have hlength := hleft [] inner after (tokenAt_iff.mpr ⟨_, rfl, ht⟩)
      exact Nat.not_succ_le_zero _ hlength
    rw [fragments_of_not_token? hn, ih, List.map_cons, List.cons_append]
    intro before inner after h
    exact Nat.le_of_succ_le_succ
      (hleft (c :: before) inner after ((tokenAt_cons_iff hn).mpr ⟨before, rfl, h⟩))

theorem Scan.fragments_eq {parts : List Part} {last : List Char} (h : Scan cs parts last) :
    fragments cs = parts.flatMap Part.fragments ++ last.map .plain := by
  induction h with
  | @done cs hn =>
    have hplain : fragments (cs ++ []) = cs.map .plain ++ fragments [] := by
      apply fragments_gap_append
      rw [List.append_nil]
      exact fun before inner after h => absurd h (hn before inner after)
    simpa using hplain
  | @next cs gap body rest last parts ht hleft hr ih =>
    obtain ⟨tail, rfl, hs⟩ := tokenAt_iff.mp ht
    rw [fragments_gap_append hleft, fragments_of_token? hs, ih]
    simp [Part.fragments]

theorem Scan.proper {parts : List Part} {last : List Char} (h : Scan cs parts last) :
    ∀ part ∈ parts, part.body ≠ [] ∧ '}' ∉ part.body := by
  induction h with
  | done hn => exact fun _ hm => absurd hm List.not_mem_nil
  | next ht hleft hr ih => exact List.forall_mem_cons.mpr ⟨⟨ht.ne, ht.brace⟩, ih⟩

theorem token?_source {body : List Char} (hne : body ≠ []) (hb : '}' ∉ body) :
    token? (Fragment.token body).source = some (body, []) :=
  token?_eq_some_iff.mpr ⟨rfl, hne, hb⟩

theorem bodyOf_token {part : Part} (hne : part.body ≠ []) (hb : '}' ∉ part.body) :
    bodyOf part.token = String.ofList part.body := by
  rw [bodyOf, Part.token, String.toList_ofList, token?_source hne hb]

theorem scan_token {body : List Char} (hne : body ≠ []) (hb : '}' ∉ body) :
    Scan (Fragment.token body).source [⟨[], body⟩] [] := by
  apply Scan.token (token?_source hne hb)
  exact .done fun _ _ _ => not_tokenAt_nil

end Reference

namespace Resolver

variable {σ : Type u} {r : Resolver σ} {root : String} {cs last : List Char} {parts : List Part}

def filled (parts : List Part) (links : List String) (last : List Char) : String :=
  String.join (List.zipWith (fun part link => String.ofList part.gap ++ link) parts links) ++
    String.ofList last

theorem forall₂_plain (cs : List Char) :
    List.Forall₂ (fun fragment piece => r.resolveFragment root fragment = .ok piece)
      (cs.map .plain) (cs.map fun c => String.ofList [c]) := by
  rw [List.forall₂_map_left_iff, List.forall₂_map_right_iff, List.forall₂_same]
  intro c hc
  rfl

theorem join_plain (cs : List Char) :
    String.join (cs.map fun c => String.ofList [c]) = String.ofList cs := by
  apply String.toList_inj.mp
  simp [String.toList_join, List.flatMap_map]

theorem resolve_token {part : Part} (hne : part.body ≠ []) (hb : '}' ∉ part.body) :
    r.resolve part.token root = r.resolveBody (String.ofList part.body) root := by
  rw [resolve, bodyOf_token hne hb]

theorem forall₂_fragments {part : Part} {linked : String} (hne : part.body ≠ [])
    (hb : '}' ∉ part.body) (h : r.resolve part.token root = .ok linked) :
    List.Forall₂ (fun fragment piece => r.resolveFragment root fragment = .ok piece)
      part.fragments (part.gap.map (fun c => String.ofList [c]) ++ [linked]) := by
  apply List.rel_append (forall₂_plain part.gap)
  rw [resolve_token hne hb] at h
  exact .cons h .nil

theorem exists_pieces (hp : ∀ part ∈ parts, part.body ≠ [] ∧ '}' ∉ part.body)
    {links : List String}
    (hl : List.Forall₂ (fun part linked => r.resolve part.token root = .ok linked) parts links) :
    ∃ pieces, List.Forall₂ (fun fragment piece => r.resolveFragment root fragment = .ok piece)
        (parts.flatMap Part.fragments) pieces ∧
      String.join pieces = filled parts links [] := by
  induction hl with
  | nil => exact ⟨[], .nil, rfl⟩
  | @cons part linked parts links h _ ih =>
    obtain ⟨hpart, hp⟩ := List.forall_mem_cons.mp hp
    obtain ⟨pieces, hf, hj⟩ := ih hp
    refine ⟨_, List.rel_append (forall₂_fragments hpart.1 hpart.2 h) hf, ?_⟩
    rw [String.join_append, String.join_append, join_plain, hj]
    simp [filled, String.append_assoc]

theorem replace_of_links {text : String} (h : Scan text.toList parts last) {links : List String}
    (hl : List.Forall₂ (fun part linked => r.resolve part.token root = .ok linked) parts links) :
    r.replace text root = .ok (filled parts links last) := by
  obtain ⟨pieces, hf, hj⟩ := exists_pieces h.proper hl
  apply r.replace_eq_ok_iff.mpr
  refine ⟨pieces ++ last.map fun c => String.ofList [c], ?_, ?_⟩
  · rw [h.fragments_eq]
    exact List.rel_append hf (forall₂_plain last)
  · rw [String.join_append, hj, join_plain]
    simp [filled]

theorem replace_eq_error {text : String} {before after : List Part} {part : Part} {e : Unresolved}
    (h : Scan text.toList (before ++ part :: after) last)
    (hb : ∀ p ∈ before, ∃ linked, r.resolve p.token root = .ok linked)
    (he : r.resolve part.token root = .error e) : r.replace text root = .error e := by
  have hpart := h.proper part (by simp)
  have hfragments : fragments text.toList =
      (before.flatMap Part.fragments ++ part.gap.map .plain) ++
        .token part.body :: (after.flatMap Part.fragments ++ last.map .plain) := by
    rw [h.fragments_eq]
    simp [Part.fragments]
  have hx : r.resolveFragment root (.token part.body) = .error e := by
    rw [resolve_token hpart.1 hpart.2] at he
    exact he
  rw [replace, hfragments, mapM_eq_error _ hx]
  · rfl
  · intro fragment hm
    cases fragment with
    | plain c => exact ⟨_, rfl⟩
    | token body =>
      obtain ⟨p, hp, hf⟩ : ∃ p ∈ before, Fragment.token body ∈ p.fragments := by simpa using hm
      have hproper := h.proper p (List.mem_append_left _ hp)
      obtain ⟨linked, hl⟩ := hb p hp
      rw [resolve_token hproper.1 hproper.2] at hl
      obtain rfl : body = p.body := by simpa [Part.fragments] using hf
      exact ⟨linked, hl⟩

theorem braced_eq_token (body : String) :
    "@\x7b" ++ body ++ "\x7d" = Part.token ⟨[], body.toList⟩ := by
  apply String.toList_inj.mp
  simp [Part.token, Fragment.source]

theorem resolve_braced {body : String} (hne : body ≠ "") (hb : '}' ∉ body.toList) :
    r.resolve ("@\x7b" ++ body ++ "\x7d") root = r.resolve body root := by
  have hne' : body.toList ≠ [] := mt String.toList_eq_nil_iff.mp hne
  rw [braced_eq_token, resolve_token hne' hb, String.ofList_toList, resolve, bodyOf_of_not_mem hb]

theorem replace_token {body : String} (hne : body ≠ "") (hb : '}' ∉ body.toList) :
    r.replace ("@\x7b" ++ body ++ "\x7d") root = r.resolve ("@\x7b" ++ body ++ "\x7d") root := by
  have hs : Scan (Part.token ⟨[], body.toList⟩).toList ([] ++ [⟨[], body.toList⟩]) [] := by
    rw [Part.token, String.toList_ofList]
    exact scan_token (mt String.toList_eq_nil_iff.mp hne) hb
  rw [braced_eq_token]
  cases hr : r.resolve (Part.token ⟨[], body.toList⟩) root with
  | ok linked =>
    rw [replace_of_links hs (.cons hr .nil)]
    simp [filled]
  | error e => exact replace_eq_error hs (List.forall_mem_nil _) hr

/-- A text has one reading from the left, and the links take the places of its tokens. -/
theorem replace_scans (r : Resolver σ) (root text : String) :
    (∃ parts last, Scan text.toList parts last ∧
      (∀ others other, Scan text.toList others other → others = parts ∧ other = last) ∧
      (∀ links,
        List.Forall₂ (fun part linked => r.resolve part.token root = .ok linked) parts links →
        r.replace text root = .ok (filled parts links last)) ∧
      ∀ before part after e, parts = before ++ part :: after →
        (∀ p ∈ before, ∃ linked, r.resolve p.token root = .ok linked) →
        r.resolve part.token root = .error e → r.replace text root = .error e) ∧
    ∀ body : String, body ≠ "" → '}' ∉ body.toList →
      r.replace ("@\x7b" ++ body ++ "\x7d") root = r.resolve ("@\x7b" ++ body ++ "\x7d") root ∧
      r.resolve ("@\x7b" ++ body ++ "\x7d") root = r.resolve body root ∧
      ('$' ∉ body.toList → r.Within body → ∀ linked,
        r.resolve body root = .ok linked ↔ r.linkTo body body root true = .ok linked) := by
  constructor
  · have hs := scan_reading text.toList
    refine ⟨_, _, hs, fun others other h => h.unique hs,
      fun links hl => replace_of_links hs hl, ?_⟩
    intro before part after e hp hb he
    rw [hp] at hs
    exact replace_eq_error hs hb he
  · intro body hne hb
    refine ⟨replace_token hne hb, resolve_braced hne hb, ?_⟩
    intro hd hw linked
    have hbody : ofBody body = ⟨.symbol body, none⟩ := ofBody_of_source (.symbol hne ⟨hd, hb⟩)
    rw [resolve, bodyOf_of_not_mem hb, linkTo_eq_ok_iff, resolveBody_symbol_iff hbody]
    simp [hw]

theorem replace_scans_nested :
    ∃ r : Resolver Bool,
      r.replace "@\x7b\x7d@\x7bm.f$@\x7ba\x7d@\x7bm.f\x7d@\x7bm" "." =
        .ok "@\x7b\x7d[@\x7ba](./m/f.md)[`m.f`](./m/f.md)@\x7bm" ∧
      r.replace "@\x7bm.f\x7d @\x7bgone$x\x7d @\x7b$lost\x7d" "." =
        .error ⟨"gone$x", .unknownSymbol "gone"⟩ ∧
      r.replace "@\x7bm.f\x7d" "." = r.resolve "m.f" "." ∧
      r.linkTo "m.f" "m.f" "." true = .ok "[`m.f`](./m/f.md)" := by
  let r : Resolver Bool :=
    ⟨.ofList [("m.f", true)], .empty, .empty, [], fun _ page => page⟩
  have hf : r.resolve "m.f" "." = .ok "[`m.f`](./m/f.md)" := by decide +kernel
  refine ⟨r, ?_, ?_, ?_⟩
  · let text := "@\x7b\x7d@\x7bm.f$@\x7ba\x7d@\x7bm.f\x7d@\x7bm"
    have hread : reading (fragments text.toList) =
        ([⟨"@\x7b\x7d".toList, "m.f$@\x7ba".toList⟩, ⟨[], "m.f".toList⟩], "@\x7bm".toList) := by
      decide +kernel
    have hs := scan_reading text.toList
    rw [hread] at hs
    obtain ⟨⟨parts, last, -, hunique, hlinks, -⟩, -⟩ := replace_scans r "." text
    obtain ⟨rfl, rfl⟩ := hunique _ _ hs
    apply (hlinks ["[@\x7ba](./m/f.md)", "[`m.f`](./m/f.md)"] _).trans
    · decide +kernel
    · exact .cons (by decide +kernel) (.cons (by decide +kernel) .nil)
  · let text := "@\x7bm.f\x7d @\x7bgone$x\x7d @\x7b$lost\x7d"
    have hread : reading (fragments text.toList) =
        ([⟨[], "m.f".toList⟩, ⟨[' '], "gone$x".toList⟩, ⟨[' '], "$lost".toList⟩], []) := by
      decide +kernel
    have hs := scan_reading text.toList
    rw [hread] at hs
    obtain ⟨⟨parts, last, -, hunique, -, herror⟩, -⟩ := replace_scans r "." text
    obtain ⟨rfl, rfl⟩ := hunique _ _ hs
    apply herror [⟨[], "m.f".toList⟩] ⟨[' '], "gone$x".toList⟩ _ _ rfl
    · intro p hp
      cases List.mem_singleton.mp hp
      exact ⟨"[`m.f`](./m/f.md)", by decide +kernel⟩
    · decide +kernel
  · obtain ⟨-, hbody⟩ := replace_scans r "." ""
    obtain ⟨hreplace, hresolve, hlink⟩ := hbody "m.f" (by decide) (by decide)
    exact ⟨hreplace.trans hresolve, (hlink (by decide) (.inl rfl) _).mp hf⟩

end Resolver

end RefDoc
