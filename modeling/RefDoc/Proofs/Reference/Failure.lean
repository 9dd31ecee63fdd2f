import RefDoc.Proofs.Reference.Scan

namespace RefDoc

open Reference

namespace Reference

/-- Whether a body refers to a document and gives it a title of its own. -/
def Retitles (body : List Char) : Prop := ∃ rest, body = '$' :: rest ∧ '$' ∈ rest

variable {body title : String} {cs : List Char} {parts before after : List Part} {part : Part}
  {last : List Char}

theorem retitles_source_append {name anchor : String}
    (hb : body = Target.source (.document name anchor) ++ "$" ++ title) :
    Retitles body.toList := by
  refine ⟨name.toList ++ anchor.toList ++ '$' :: title.toList, ?_, by simp⟩
  rw [hb]
  simp [Target.source]

theorem exists_title_of_retitles (h : Retitles body.toList) :
    ∃ name anchor title, ofBody body = ⟨.document name anchor, some title⟩ ∧
      '$' ∉ title.toList := by
  obtain ⟨rest, hbody, hrest⟩ := h
  obtain ⟨target, text, hc⟩ :
      ∃ target text, Text.cutLast? '$' body.toList = some (target, text) := by
    cases hc : Text.cutLast? '$' body.toList with
    | none => exact absurd (hbody ▸ List.mem_cons_self) (Text.cutLast?_eq_none_iff.mp hc)
    | some cut => exact ⟨cut.1, cut.2, rfl⟩
  obtain ⟨happ, htext⟩ := Text.append_of_cutLast? hc
  rw [hbody] at happ
  -- The last dollar sign is not the one in first place, as a second one stands behind it.
  cases target with
  | nil =>
    obtain ⟨-, rfl⟩ := List.cons.inj happ
    exact absurd hrest htext
  | cons c target =>
    obtain ⟨rfl, -⟩ := List.cons.inj happ
    have hd : ∃ name anchor, Target.ofText (String.ofList ('$' :: target)) =
        .document name anchor := by
      rw [Target.ofText_of_dollar (String.toList_ofList)]
      split
      · exact ⟨_, _, rfl⟩
      · exact ⟨_, _, rfl⟩
    obtain ⟨name, anchor, hd⟩ := hd
    refine ⟨name, anchor, String.ofList text, ?_, by rwa [String.toList_ofList]⟩
    simp only [ofBody, hc, hd, if_neg (List.cons_ne_nil _ _)]

theorem Scan.exists_append (h : Scan cs (before ++ part :: after) last) :
    ∃ front back, cs = front ++ part.token.toList ++ back := by
  have hsource := flatMap_source_fragments cs
  rw [h.fragments_eq] at hsource
  refine ⟨(before.flatMap Part.fragments ++ part.gap.map Fragment.plain).flatMap Fragment.source,
    (after.flatMap Part.fragments ++ last.map Fragment.plain).flatMap Fragment.source, ?_⟩
  rw [← hsource]
  simp [Part.fragments, Part.token]

theorem Scan.part_eq {only : Part} {rest : List Char} (h : Scan cs (before ++ part :: after) last)
    (hr : reading (fragments cs) = ([only], rest)) : part = only := by
  have hs := scan_reading cs
  rw [hr] at hs
  obtain ⟨hparts, -⟩ := h.unique hs
  have hpart : part ∈ before ++ part :: after := by simp
  rwa [hparts, List.mem_singleton] at hpart

theorem message_eq (e : Unresolved) : e.message =
    "Unresolved reference \"" ++ ("@\x7b" ++ e.reference ++ "\x7d") ++ "\": " ++
      e.cause.message := by
  have hopen : "Unresolved reference \"@\x7b" = "Unresolved reference \"" ++ "@\x7b" := by
    decide +kernel
  have hclose : "\x7d\": " = "\x7d" ++ "\": " := by decide +kernel
  unfold Unresolved.message
  rw [hopen, hclose]
  simp only [String.append_assoc]

end Reference

namespace Resolver

variable {σ : Type u} {r : Resolver σ} {root text body : String} {e : Unresolved}

/-- The error of a body names it, without the title given to a document. -/
theorem reference_of_resolveBody (h : r.resolveBody body root = .error e) :
    (¬ Retitles body.toList → e.reference = body) ∧
      (Retitles body.toList →
        ∃ title, '$' ∉ title.toList ∧ body = e.reference ++ "$" ++ title) := by
  have hsource := source_ofBody body
  cases hb : ofBody body with
  | mk target text? =>
    rw [hb] at hsource
    cases target with
    | symbol name =>
      simp only [resolveBody, hb] at h
      have hreference : e.reference = body := by
        split at h
        · split at h
          · cases h
            rfl
          · cases h
        · cases h
          rfl
      -- An error about a symbol has the whole body, text of the link included.
      refine ⟨fun _ => hreference, fun hr => ?_⟩
      obtain ⟨name', anchor, title, hb', -⟩ := exists_title_of_retitles hr
      cases hb.symm.trans hb'
    | document name anchor =>
      simp only [resolveBody, hb] at h
      have hreference : e.reference = Target.source (.document name anchor) := by
        split at h
        · cases h
          rfl
        · cases h
      rw [hreference]
      cases text? with
      | none =>
        refine ⟨fun _ => hsource, fun hr => ?_⟩
        obtain ⟨name', anchor', title, hb', -⟩ := exists_title_of_retitles hr
        cases hb.symm.trans hb'
      | some title =>
        have hr : Retitles body.toList := retitles_source_append hsource.symm
        refine ⟨fun hn => absurd hr hn, fun _ => ?_⟩
        obtain ⟨name', anchor', title', hb', ht⟩ := exists_title_of_retitles hr
        cases hb.symm.trans hb'
        exact ⟨title, ht, hsource.symm⟩

theorem exists_first_error (h : r.replace text root = .error e) :
    ∃ before part after last, Scan text.toList (before ++ part :: after) last ∧
      (∀ p ∈ before, ∃ linked, r.resolve p.token root = .ok linked) ∧
      r.resolve part.token root = .error e := by
  have hs := scan_reading text.toList
  obtain ⟨links, hl⟩ | ⟨before, part, after, e', hp, hb, he⟩ :=
    forall₂_or_first_error (fun part : Part => r.resolve part.token root)
      (reading (fragments text.toList)).1
  · rw [replace_of_links hs hl] at h
    cases h
  · rw [hp] at hs
    rw [replace_eq_error hs hb he] at h
    cases h
    exact ⟨before, part, after, _, hs, hb, he⟩

/-- The error names the first token that does not resolve, unless that gives a document a title. -/
theorem replace_error_names (r : Resolver σ) {root text : String} {e : Unresolved}
    (h : r.replace text root = .error e) :
    ∃ before part after last, Scan text.toList (before ++ part :: after) last ∧
      (∀ p ∈ before, ∃ linked, r.resolve p.token root = .ok linked) ∧
      r.resolve part.token root = .error e ∧
      (e.reference = String.ofList part.body ↔ ¬ Retitles part.body) ∧
      (¬ Retitles part.body → ∃ front back detail,
        text = front ++ ("@\x7b" ++ e.reference ++ "\x7d") ++ back ∧
        e.message = "Unresolved reference \"" ++ ("@\x7b" ++ e.reference ++ "\x7d") ++ "\": " ++
          detail) ∧
      (Retitles part.body → ∃ title front back, '$' ∉ title.toList ∧
        String.ofList part.body = e.reference ++ "$" ++ title ∧
        text = front ++ ("@\x7b" ++ e.reference ++ "$" ++ title ++ "\x7d") ++ back) := by
  obtain ⟨before, part, after, last, hs, hb, he⟩ := exists_first_error h
  have hpart := hs.proper part (by simp)
  have hbody := he
  rw [resolve_token hpart.1 hpart.2] at hbody
  obtain ⟨hnames, htitle⟩ := reference_of_resolveBody hbody
  rw [String.toList_ofList] at hnames htitle
  obtain ⟨front, back, htext⟩ := hs.exists_append
  have hquote : text = String.ofList front ++ ("@\x7b" ++ String.ofList part.body ++ "\x7d") ++
      String.ofList back := by
    rw [← String.toList_inj, htext]
    simp [Part.token, Fragment.source]
  refine ⟨before, part, after, last, hs, hb, he, ?_, ?_, ?_⟩
  · refine ⟨fun hn hr => ?_, hnames⟩
    obtain ⟨title, -, ht⟩ := htitle hr
    rw [← hn] at ht
    -- With its title the body is longer than the reference of the error.
    have hlength := congrArg (fun s => s.toList.length) ht
    simp at hlength
  · intro hr
    refine ⟨String.ofList front, String.ofList back, e.cause.message, ?_, ?_⟩
    · rwa [hnames hr]
    · exact message_eq e
  · intro hr
    obtain ⟨title, hdollar, ht⟩ := htitle hr
    refine ⟨title, String.ofList front, String.ofList back, hdollar, ht, ?_⟩
    rw [ht] at hquote
    simpa only [String.append_assoc] using hquote

theorem replace_error_names_second :
    ∃ r : Resolver Bool,
      (r.replace "@\x7bm.f\x7d @\x7bgone$x\x7d @\x7b$lost$y\x7d" "." =
          .error ⟨"gone$x", .unknownSymbol "gone"⟩ ∧
        ∃ front back, "@\x7bm.f\x7d @\x7bgone$x\x7d @\x7b$lost$y\x7d" =
          front ++ ("@\x7b" ++ "gone$x" ++ "\x7d") ++ back) ∧
      r.replace "See @\x7b$lost#a$here\x7d." "." =
          .error ⟨"$lost#a", .unknownDocument "lost"⟩ ∧
        ∃ title front back, "See @\x7b$lost#a$here\x7d." =
          front ++ ("@\x7b" ++ "$lost#a" ++ "$" ++ title ++ "\x7d") ++ back := by
  let r : Resolver Bool :=
    ⟨.ofList [("m.f", true)], .empty, .empty, [], fun _ page => page⟩
  have hsymbol : r.replace "@\x7bm.f\x7d @\x7bgone$x\x7d @\x7b$lost$y\x7d" "." =
      .error ⟨"gone$x", .unknownSymbol "gone"⟩ := by decide +kernel
  have hdocument : r.replace "See @\x7b$lost#a$here\x7d." "." =
      .error ⟨"$lost#a", .unknownDocument "lost"⟩ := by decide +kernel
  refine ⟨r, ⟨hsymbol, ?_⟩, hdocument, ?_⟩
  · obtain ⟨before, part, after, last, -, -, -, -, hquote, htitle⟩ := replace_error_names r hsymbol
    have hn : ¬ Retitles part.body := by
      intro hr
      obtain ⟨title, front, back, -, ht, -⟩ := htitle hr
      obtain ⟨rest, hrest, -⟩ := hr
      have hhead := congrArg (·.toList.head?) ht
      simp [hrest] at hhead
    obtain ⟨front, back, detail, htext, -⟩ := hquote hn
    exact ⟨front, back, htext⟩
  · obtain ⟨before, part, after, last, hs, -, -, -, -, htitle⟩ := replace_error_names r hdocument
    have hreading : reading (fragments "See @\x7b$lost#a$here\x7d.".toList) =
        ([⟨"See ".toList, "$lost#a$here".toList⟩], ['.']) := by decide +kernel
    have hpart := hs.part_eq hreading
    obtain ⟨title, front, back, -, -, htext⟩ :=
      htitle (hpart ▸ ⟨"lost#a$here".toList, by decide +kernel, by decide +kernel⟩)
    exact ⟨title, front, back, htext⟩

/-- The error of a document with a title of its own names no token of the text. -/
theorem replace_error_names_no_token :
    ∃ (r : Resolver Bool) (e : Unresolved), r.replace "@\x7b$lost$here\x7d" "." = .error e ∧
      (¬ ∃ before part after last,
        Scan "@\x7b$lost$here\x7d".toList (before ++ part :: after) last ∧
        (∀ p ∈ before, ∃ linked, r.resolve p.token "." = .ok linked) ∧
        r.resolve part.token "." = .error e ∧ e.reference = String.ofList part.body) ∧
      ¬ ("@\x7b" ++ e.reference ++ "\x7d").toList <:+: "@\x7b$lost$here\x7d".toList := by
  refine ⟨⟨.empty, .empty, .empty, [], fun _ page => page⟩, ⟨"$lost", .unknownDocument "lost"⟩,
    by decide +kernel, ?_, by decide +kernel⟩
  rintro ⟨before, part, after, last, hs, -, -, hn⟩
  have hreading : reading (fragments "@\x7b$lost$here\x7d".toList) =
      ([⟨[], "$lost$here".toList⟩], []) := by decide +kernel
  have hpart := hs.part_eq hreading
  rw [hpart] at hn
  exact absurd hn (by decide +kernel)

end Resolver

end RefDoc
