import RefDoc.Proofs.Docstring.Invariant
import RefDoc.Proofs.Docstring.Settled
import RefDoc.Proofs.Docstring.Texts
import RefDoc.Proofs.Reference.Replace

namespace RefDoc.Docstring

open Reference

namespace Machine

def Indented (m : Machine) : Prop := ∀ s ∈ m.sections, ∀ c ∈ s.indent.toList, Text.isIndent c = true

variable {keywords : Option (List String)} {good : List Char → Prop} {m m' : Machine}
  {line text : String} {rest : List String}

theorem item?_map (hi : m.Indented) (w : Rewriter) (line : String) :
    (m.map w.text).item? (w.text line) = (m.item? line).map (Prod.map id w.text) := by
  cases hs : m.sections with
  | nil => simp [Machine.item?, map, hs]
  | cons s older =>
    simp only [Machine.item?, map, hs, List.map_cons, Section.map]
    split
    · rfl
    · exact Line.item?_text w (hi s (by simp [hs])) line

theorem indented_add (hi : m.Indented) (part : Part) (text : String) :
    (m.add part text).Indented := by
  cases part with
  | body => exact hi
  | header | item => exact forall_mem_modifyHead hi (fun _ => id) fun _ => id

theorem Indented.of_step (hi : m.Indented) (hs : Step keywords m line rest m') : m'.Indented := by
  cases hs with
  | first hm => exact indented_add hi .body line
  | closing hm hb =>
    refine indented_add ?_ _ _
    rw [Indented, note_sections]
    exact hi
  | content hm hb => exact hi
  | opening hm hb => exact hi
  | heading hm hb hk =>
    exact List.forall_mem_cons.mpr ⟨fun c => isIndent_of_mem_itemIndent, hi⟩
  | item hm hb hk hp h => exact forall_mem_modifyHead hi (fun _ => id) fun _ => id
  | text hm hb hk h => exact indented_add hi _ line

theorem Each.add_brings (h : m.Each (Settled good (line :: rest))) (ht : Brings good line rest text)
    (part : Part) : (m.add part text).Each (Settled good rest) :=
  h.add (fun _ hs => hs.append ht) (fun _ => Settled.tail) part

/-- The texts of a machine stay settled when it reads a line. -/
theorem Each.of_step (h : m.Each (Settled good (line :: rest))) (hi : m.Indented)
    (hl : Settled good rest line) (hs : Step keywords m line rest m') :
    m'.Each (Settled good rest) := by
  have ht := h.imp fun _ => Settled.tail
  cases hs with
  | first hm => exact { h.add_brings hl.brings .body with block := nofun }
  | @closing b hm hb =>
    have hn := h.note b.target (h.block b hm)
    exact { hn.add_brings (.of_afterBlock? hl) _ with block := nofun }
  | content hm hb =>
    refine { ht with block := ?_ }
    rintro _ ⟨⟩
    change Settled good rest (ite _ _ _)
    split
    · exact settled_empty good rest
    · exact (h.block _ hm).append hl.brings
  | opening hm hb =>
    refine { ht with block := ?_ }
    rintro _ ⟨⟩
    exact settled_empty good rest
  | heading hm hb hk =>
    refine { ht with sections := List.forall_mem_cons.mpr ⟨?_, ht.sections⟩, block := nofun }
    exact ⟨settled_empty good rest, nofun⟩
  | item hm hb hk hp hd =>
    obtain ⟨s, older, hs, -, hl'⟩ := exists_of_item? hd
    -- Indent, stars and name of an item are plain, so every token of the line lies in its text.
    have hb := Brings.of_itemizes (hi s (by simp [hs])) hl hl'
    refine { ht with
      sections := forall_mem_modifyHead ht.sections (fun s hs => ?_) fun _ => id
      block := nofun }
    exact ⟨hs.1, List.forall_mem_cons.mpr ⟨hb.settled, hs.2⟩⟩
  | text hm hb hk hd => exact h.add_brings hl.brings _

theorem map_add_brings (h : m.Each (Settled good (line :: rest))) (ht : Brings good line rest text)
    (w : Rewriter) (part : Part) :
    (m.add part text).map w.text = (m.map w.text).add part (w.text text) :=
  map_add h (fun _ hs => hs.text_append w ht) part

theorem map_inBlock {b : Block} (h : m.Each (Settled good (line :: rest)))
    (hl : Settled good rest line) (hm : m.mode = .block b) (w : Rewriter) :
    (m.inBlock b line).map w.text =
      (m.map w.text).inBlock { b with content := w.text b.content } (w.text line) := by
  rw [inBlock, inBlock]
  cases b.linesLeft with
  | zero =>
    have hc := map_add_brings (h.note b.target (h.block b hm)) (.of_afterBlock? hl) w b.interrupted
    rw [map_note, ← Option.getD_map w.text, ← Line.afterBlock?_text] at hc
    simp only [← hc]
    rfl
  | succ linesLeft =>
    have he : w.text b.content = "" ↔ b.content = "" :=
      w.text_eq_iff ⟨by decide, by decide, by decide⟩
    have hc : w.text (if b.content = "" ∧ Line.isBlank line then "" else b.content ++ line) =
        if w.text b.content = "" ∧ Line.isBlank (w.text line) then ""
        else w.text b.content ++ w.text line := by
      rw [apply_ite w.text, w.text_empty, (h.block b hm).text_append w hl.brings]
      simp only [he, Line.isBlank_text]
    simp only [← hc]
    rfl

theorem map_inPart (h : m.Each (Settled good (line :: rest))) (hi : m.Indented)
    (hl : Settled good rest line) (w : Rewriter) (part : Part) :
    (m.inPart keywords part line rest).map w.text =
      (m.map w.text).inPart keywords part (w.text line) (rest.map w.text) := by
  have ha := map_add_brings h hl.brings w
  unfold inPart
  rw [Line.keyword?_text, itemIndent_text]
  split
  · simp only [openSection, map, List.map_cons, Section.map, w.text_empty, List.map_nil, Mode.map]
  · cases part with
    | body => exact ha .body
    | header | item =>
      simp only [item?_map hi]
      cases m.item? line with
      | none => exact ha _
      | some entry =>
        cases hs : m.sections with
        | nil => simp [openItem, map, Mode.map, hs]
        | cons s older => simp [openItem, map, Mode.map, hs, Section.map]

theorem map_step (h : m.Each (Settled good (line :: rest))) (hi : m.Indented)
    (hl : Settled good rest line) (w : Rewriter) :
    (m.step keywords line rest).map w.text =
      (m.map w.text).step keywords (w.text line) (rest.map w.text) := by
  have hm' : (m.map w.text).mode = m.mode.map w.text := rfl
  cases hm : m.mode with
  | fresh =>
    have ha := map_add_brings h hl.brings w .body
    simp only [step, hm', hm, Mode.map, ← ha]
    rfl
  | block b =>
    simp only [step, hm', hm, Mode.map]
    exact map_inBlock h hl hm w
  | within part =>
    simp only [step, hm', hm, Mode.map, block?_text]
    split
    · simp only [openBlock, map, Mode.map, w.text_empty]
    · exact map_inPart h hi hl w part

theorem map_run (keywords : Option (List String)) {lines : List String}
    (h : m.Each (Settled good lines)) (hi : m.Indented) (hl : Apart good lines) (w : Rewriter) :
    (m.run keywords lines).Each (Settled good []) ∧
      (m.run keywords lines).map w.text = (m.map w.text).run keywords (lines.map w.text) := by
  induction lines generalizing m with
  | nil => exact ⟨h, rfl⟩
  | cons line rest ih =>
    obtain ⟨hline, hrest⟩ := hl
    have hs := step_spec keywords m line rest
    obtain ⟨he, hr⟩ := ih (h.of_step hi hline hs) (hi.of_step hs) hrest
    rw [run, List.map_cons, run, ← map_step h hi hline w]
    exact ⟨he, hr⟩

end Machine

structure SectionRewrites (R : String → String → Prop) (s s' : Section) : Prop where
  keyword : s'.keyword = s.keyword
  indent : s'.indent = s.indent
  header : R s.header s'.header
  items : List.Forall₂ (fun item item' => item'.name = item.name ∧
    R item.description item'.description) s.items s'.items

/-- A docstring with the texts of another replaced by related ones. -/
structure Rewrites (R : String → String → Prop) (doc doc' : Docstring) : Prop where
  brief : R doc.brief doc'.brief
  body : R doc.body doc'.body
  sections : List.Forall₂ (SectionRewrites R) doc.sections doc'.sections
  notes : List.Forall₂ (fun note note' => note'.1 = note.1 ∧ R note.2 note'.2)
    doc.notes.entries doc'.notes.entries

variable {R : String → String → Prop} {f : String → String}

theorem sectionRewrites_map {s : Section} (h : Machine.EachOf (fun s => R s (f s)) s) :
    SectionRewrites R { s with items := s.items.reverse }
      { s.map f with items := (s.map f).items.reverse } where
  keyword := rfl
  indent := rfl
  header := h.1
  items := by
    rw [List.forall₂_reverse_iff, Section.map, List.forall₂_map_right_iff, List.forall₂_same]
    intro item hi
    exact ⟨rfl, h.2 item hi⟩

theorem rewrites_result {m : Machine} (h : m.Each fun s => R s (f s))
    (hb : R (Text.firstLine m.body) (Text.firstLine (f m.body))) :
    Rewrites R m.result (m.map f).result where
  brief := hb
  body := h.body
  sections := by
    simp only [Machine.result, Machine.map, List.forall₂_reverse_iff, List.forall₂_map_left_iff,
      List.forall₂_map_right_iff, List.forall₂_same]
    intro s hs
    exact sectionRewrites_map (h.sections s hs)
  notes := by
    simp only [Machine.result, Machine.map, Table.map, List.forall₂_map_right_iff,
      List.forall₂_same]
    intro note hn
    exact ⟨trivial, h.notes note hn⟩

theorem each_start (good : List Char → Prop) (later : List String) :
    Machine.start.Each (Settled good later) where
  body := settled_empty good later
  sections := nofun
  notes := nofun
  block := nofun

/-- References may be replaced before or after a docstring is structured. -/
theorem ofText_replace {σ : Type u} (r : Resolver σ) (root : String)
    (keywords : Option (List String)) (text resolved : String)
    (h : r.replace text root = .ok resolved)
    (hbody : ∀ body, .token body ∈ fragments text.toList → '\n' ∉ body)
    (hlink : ∀ body linked, .token body ∈ fragments text.toList →
      r.resolveBody (String.ofList body) root = .ok linked → '\n' ∉ linked.toList) :
    Rewrites (fun s s' => r.replace s root = .ok s') (ofText text keywords)
      (ofText resolved keywords) := by
  have hr := Resolver.resolves_of_replace h hbody hlink
  obtain rfl : (r.rewriter root).text text = resolved :=
    Except.ok.inj ((Resolver.replace_of_resolves hr).symm.trans h)
  have hl := apart_lines hbody hr
  obtain ⟨hm, hrun⟩ := Machine.map_run keywords (each_start _ _) nofun hl (r.rewriter root)
  have hstart : Machine.start.map (r.rewriter root).text = Machine.start := by
    simp [Machine.map, Machine.start, Mode.map, Table.map, Table.empty]
  rw [ofText, ofText, lines_text _ hbody, ← hstart, ← hrun, hstart]
  apply rewrites_result
  · exact hm.imp fun s hs => Resolver.replace_of_resolves hs.good
  · have ho : OneLine (Machine.start.run keywords (Text.lines text)).body.toList :=
      fun body hb => (hm.body.good body hb).1
    rw [firstLine_text _ ho]
    exact Resolver.replace_of_resolves (hm.body.firstLine ho)

theorem ofText_replace_everywhere :
    let text := "See @\x7bm.f\x7d.\nArgs:\n  x: as @\x7bm.f\x7d\n" ++
      "@compatibility(np)\n@\x7bm.f\x7d\n@end_compatibility"
    let resolved := "See [`m.f`](./m/f.md).\nArgs:\n  x: as [`m.f`](./m/f.md)\n" ++
      "@compatibility(np)\n[`m.f`](./m/f.md)\n@end_compatibility"
    ∃ r : Resolver Unit, r.replace text "." = .ok resolved ∧
      Rewrites (fun s s' => r.replace s "." = .ok s') (ofText text none)
        (ofText resolved none) := by
  let r : Resolver Unit := ⟨.ofList [("m.f", ())], .empty, .empty, [], fun _ _ => true⟩
  intro text resolved
  have hr : r.replace text "." = .ok resolved := by decide +kernel
  have ht (body : List Char) (hm : Fragment.token body ∈ fragments text.toList) :
      body = "m.f".toList := by
    have hall : (fragments text.toList).filter (· matches .token _) =
        List.replicate 3 (.token "m.f".toList) := by decide +kernel
    have hmem : Fragment.token body ∈ List.replicate 3 (Fragment.token "m.f".toList) :=
      hall ▸ List.mem_filter.mpr ⟨hm, rfl⟩
    exact Fragment.token.inj (List.eq_of_mem_replicate hmem)
  refine ⟨r, hr, ofText_replace r "." none text resolved hr ?_ ?_⟩
  · intro body hm
    rw [ht body hm]
    decide
  · intro body linked hm hl
    rw [ht body hm] at hl
    cases hl.symm.trans (show _ = .ok "[`m.f`](./m/f.md)" by decide +kernel)
    decide

end RefDoc.Docstring
