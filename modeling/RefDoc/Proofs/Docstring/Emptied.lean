import RefDoc.Proofs.Docstring.Piece
import RefDoc.Proofs.Docstring.Sections
import RefDoc.Proofs.Text.Lines

namespace RefDoc.Docstring

/-- A block as an empty line, or as none where its last line does not end. -/
def Piece.emptied : Piece → List String
  | .line text => [text]
  | .block b => if b.closer.toList.getLast? = some '\n' then ["\n"] else []

def emptied (text : String) : String :=
  String.join ((Text.lines text).take 1 ++
    (Piece.ofLines ((Text.lines text).drop 1)).flatMap Piece.emptied)

/-- A block that comes first among pieces, blank lines apart, and the pieces behind it. -/
inductive Leads (b : ClosedBlock) (after : List Piece) : List Piece → Prop
  | here : Leads b after (.block b :: after)
  | blank {text : String} {rest : List Piece} (hb : Line.isBlank text = true)
    (hl : Leads b after rest) : Leads b after (.line text :: rest)

/-- Whether every block that comes first in a section has the indent of the text behind it. -/
def Undisturbed (keywords : Option (List String)) : List Piece → Prop
  | [] => True
  | .line text :: rest =>
    ((∃ word, Titles keywords text word) → ∀ b after, Leads b after rest →
      Line.indent b.opener = itemIndent keywords (after.flatMap Piece.emptied)) ∧
    Undisturbed keywords rest
  | .block _ :: rest => Undisturbed keywords rest

/-- Whether the last line of every block holds nothing behind its mark. -/
def Bare (pieces : List Piece) : Prop :=
  ∀ b, .block b ∈ pieces → Line.Closes b.closer "" ∨ Line.Closes b.closer "\n"

variable {keywords : Option (List String)} {lines rest : List String} {pieces : List Piece}
  {text word : String}

theorem Piece.mem_emptied {piece : Piece} {line : String} (h : line ∈ piece.emptied) :
    line ∈ piece.lines ∨ line = "\n" := by
  cases piece with
  | line text => exact .inl h
  | block b =>
    rw [emptied] at h
    split at h
    · exact .inr (List.mem_singleton.mp h)
    · cases h

theorem block?_emptied (h : Splits rest pieces)
    (hn : (∃ target, Line.Opens text target) → ∀ last ∈ rest, ¬ ∃ ending, Line.Closes last ending) :
    block? text (pieces.flatMap Piece.emptied) = none := by
  refine block?_eq_none_iff.mpr fun ho last hl => ?_
  obtain ⟨piece, hp, hl⟩ := List.mem_flatMap.mp hl
  rcases piece.mem_emptied hl with hl | rfl
  · rw [← h.flatMap_lines] at hn
    exact hn ho last (List.mem_flatMap.mpr ⟨piece, hp, hl⟩)
  · decide

theorem emptied_of_closes_empty {b : ClosedBlock} (h : Line.Closes b.closer "") :
    (Piece.block b).emptied = [] := by
  obtain ⟨before, hl, -⟩ := h
  rw [Piece.emptied, if_neg]
  rw [hl, String.append_empty, String.toList_append, List.getLast?_append]
  exact nofun

theorem emptied_of_closes_newline {b : ClosedBlock} (h : Line.Closes b.closer "\n") :
    (Piece.block b).emptied = ["\n"] := by
  obtain ⟨before, hl, -⟩ := h
  rw [Piece.emptied, if_pos]
  rw [hl, String.toList_append, List.getLast?_append]
  rfl

theorem at_mem_of_opens {target : String} (h : Line.Opens text target) : '@' ∈ text.toList := by
  obtain ⟨before, after, ending, rfl, -⟩ := h
  simp [String.toList_append]

theorem isBlank_of_opens {target : String} (h : Line.Opens text target) :
    Line.isBlank text = false := by
  rw [Line.isBlank, List.all_eq_false]
  exact ⟨'@', at_mem_of_opens h, by decide⟩

theorem not_titles_of_opens {target : String} (h : Line.Opens text target) (word : String) :
    ¬ Titles keywords text word := by
  intro ht
  obtain ⟨⟨rfl, -, hw⟩, -⟩ := ht
  have hm := at_mem_of_opens h
  rw [String.toList_append, List.mem_append] at hm
  rcases hm with hm | hm
  · exact absurd (hw '@' hm) (by decide)
  · exact absurd hm (by decide)

theorem itemIndent_emptied_iff (hs : Splits rest pieces) (hbare : Bare pieces) :
    itemIndent keywords (pieces.flatMap Piece.emptied) = itemIndent keywords rest ↔
      ∀ b after, Leads b after pieces →
        Line.indent b.opener = itemIndent keywords (after.flatMap Piece.emptied) := by
  induction hs with
  | nil => exact iff_of_true rfl nofun
  | @line text rest pieces hn hr ih =>
    have ih := ih fun b hb => hbare b (List.mem_cons_of_mem _ hb)
    rw [List.flatMap_cons, Piece.emptied, List.singleton_append]
    -- The first line that is not blank decides, so only a blank line asks the lines behind it.
    by_cases ht : ∃ word, Titles keywords text word
    · obtain ⟨word, ht⟩ := ht
      rw [itemIndent_of_titles ht, itemIndent_of_titles ht]
      refine iff_of_true rfl fun b after hl => ?_
      cases hl with
      | blank hb hl => cases ht.not_isBlank.symm.trans hb
    · cases hb : Line.isBlank text with
      | true =>
        rw [itemIndent_of_isBlank hb, itemIndent_of_isBlank hb, ih]
        refine forall₂_congr fun b after => imp_congr_left ?_
        constructor
        · exact .blank hb
        · intro hl
          cases hl with
          | blank _ hl => exact hl
      | false =>
        rw [itemIndent_of_not_isBlank (not_exists.mp ht) hb,
          itemIndent_of_not_isBlank (not_exists.mp ht) hb]
        refine iff_of_true rfl fun b after hl => ?_
        cases hl with
        | blank hb' hl => cases hb.symm.trans hb'
  | @block b ending after pieces ho hn hc hr ih =>
    have hopener : itemIndent keywords (b.opener :: (b.content ++ b.closer :: after)) =
        Line.indent b.opener :=
      itemIndent_of_not_isBlank (not_titles_of_opens ho) (isBlank_of_opens ho) _
    have hemptied : itemIndent keywords ((Piece.block b).emptied ++ pieces.flatMap Piece.emptied) =
        itemIndent keywords (pieces.flatMap Piece.emptied) := by
      rcases hbare b List.mem_cons_self with hc | hc
      · rw [emptied_of_closes_empty hc, List.nil_append]
      · rw [emptied_of_closes_newline hc]
        exact itemIndent_of_isBlank rfl _
    rw [List.flatMap_cons, hopener, hemptied]
    constructor
    · intro h b' after' hl
      cases hl with
      | here => exact h.symm
    · intro h
      exact (h b pieces .here).symm

theorem whole_emptied (h : Text.Whole (pieces.flatMap Piece.lines)) :
    Text.Whole (pieces.flatMap Piece.emptied) := by
  obtain ⟨hp, hall⟩ := h
  have hnewline : Text.Ended "\n" := ⟨[], List.not_mem_nil, rfl⟩
  refine ⟨List.pairwise_flatMap.mpr ⟨?_, ?_⟩, ?_⟩
  · intro piece _
    cases piece with
    | line text => exact List.pairwise_singleton _ _
    | block b =>
      rw [Piece.emptied]
      split
      · exact List.pairwise_singleton _ _
      · exact .nil
  · refine (List.pairwise_flatMap.mp hp).2.imp fun {piece piece'} hpp line hl line' _ => ?_
    obtain ⟨next, hnext⟩ : ∃ next, next ∈ piece'.lines := by
      cases piece' <;> exact ⟨_, List.mem_cons_self⟩
    rcases piece.mem_emptied hl with hl | rfl
    · exact hpp line hl next hnext
    · exact hnewline
  · intro line hl
    obtain ⟨piece, hm, hl⟩ := List.mem_flatMap.mp hl
    rcases piece.mem_emptied hl with hl | rfl
    · exact hall line (List.mem_flatMap.mpr ⟨piece, hm, hl⟩)
    · exact ⟨by decide, .inl hnewline⟩

namespace Machine

variable {m : Machine} {part : Part}

def bare (m : Machine) : Machine := { m with notes := .empty }

@[simp] theorem bare_note (m : Machine) (target content : String) :
    (m.note target content).bare = m.bare := by
  rw [note]
  split <;> rfl

@[simp] theorem bare_add (m : Machine) (part : Part) (text : String) :
    (m.add part text).bare = m.bare.add part text := by
  cases part <;> rfl

theorem add_empty (m : Machine) (part : Part) : m.add part "" = m := by
  obtain ⟨mode, body, sections, notes⟩ := m
  cases part with
  | body => simp [add]
  | header => cases sections <;> simp [add]
  | item =>
    cases sections with
    | nil => rfl
    | cons s older =>
      obtain ⟨keyword, header, indent, items⟩ := s
      cases items <;> simp [add]

theorem bare_inPart (hl : ∀ word, ¬ Titles keywords text word) (m : Machine) (part : Part)
    (rest rest' : List String) :
    m.bare.inPart keywords part text rest = (m.inPart keywords part text rest').bare := by
  unfold inPart
  rw [keyword?_eq_none_iff.mpr hl]
  cases part with
  | body => rfl
  | header | item =>
    have hi : m.bare.item? text = m.item? text := rfl
    dsimp only
    rw [hi]
    cases m.item? text <;> rfl

theorem item?_newline (m : Machine) : m.item? "\n" = none := by
  cases h : m.item? "\n" with
  | none => rfl
  | some entry =>
    obtain ⟨s, older, -, -, stars, word, -, -, -, hl⟩ := exists_of_item? h
    have hm : ':' ∈ "\n".toList := by simp [hl, String.toList_append]
    exact absurd hm (by decide)

theorem run_emptied_block {b : ClosedBlock} {ending : String} (hc : Line.Closes b.closer ending)
    (he : ending = "" ∨ ending = "\n") (hm : m.mode = .within part) (rest : List String) :
    m.run keywords ((Piece.block b).emptied ++ rest) = (m.add part ending).run keywords rest := by
  rcases he with rfl | rfl
  · rw [emptied_of_closes_empty hc, add_empty, List.nil_append]
  · have hb : block? "\n" rest = none := rfl
    have hk : Line.keyword? keywords "\n" = none := rfl
    rw [emptied_of_closes_newline hc, List.singleton_append, run, step_eq_inPart hm hb]
    unfold inPart
    rw [hk, item?_newline]
    cases part <;> rfl

theorem add_body_of_ne (hp : part ≠ .body) (m : Machine) (text : String) :
    (m.add part text).body = m.body := by
  cases part with
  | body => exact absurd rfl hp
  | header | item => rfl

theorem indents_add (m : Machine) (part : Part) (text : String) :
    (m.add part text).sections.map Section.indent = m.sections.map Section.indent := by
  cases part with
  | body => rfl
  | header | item => cases hs : m.sections <;> simp [add, hs]

theorem Open.ne_body (ho : Open m.sections part) (hne : m.sections ≠ []) : part ≠ .body := by
  rintro rfl
  exact hne ho

theorem kept_of_step {m' : Machine} (hv : m.Valid (text :: rest)) (hne : m.sections ≠ [])
    (hs : Step keywords m text rest m') :
    m'.body = m.body ∧ m.sections.map Section.indent <:+ m'.sections.map Section.indent := by
  cases hs with
  | first hm =>
    rw [Valid, hm] at hv
    exact absurd hv hne
  | closing hm hb =>
    rw [Valid, hm] at hv
    refine ⟨(add_body_of_ne (hv.1.ne_body hne) _ _).trans (note_body m _ _), ?_⟩
    simp only [indents_add, note_sections, List.suffix_rfl]
  | content | opening => exact ⟨rfl, List.suffix_rfl⟩
  | heading => exact ⟨rfl, List.suffix_cons _ _⟩
  | item =>
    refine ⟨rfl, ?_⟩
    cases hs : m.sections <;> simp [openItem, hs]
  | text hm =>
    rw [Valid, hm] at hv
    refine ⟨add_body_of_ne (hv.ne_body hne) _ _, ?_⟩
    simp only [indents_add, List.suffix_rfl]

theorem kept_of_run (keywords : Option (List String)) (hv : m.Valid lines) (hne : m.sections ≠ []) :
    (m.run keywords lines).body = m.body ∧
      m.sections.map Section.indent <:+ (m.run keywords lines).sections.map Section.indent := by
  induction lines generalizing m with
  | nil => exact ⟨rfl, List.suffix_rfl⟩
  | cons text rest ih =>
    obtain ⟨hbody, hindents⟩ := kept_of_step hv hne (step_spec keywords m text rest)
    have hne' : (m.step keywords text rest).sections ≠ [] := by
      intro hnil
      rw [hnil] at hindents
      exact hne (List.map_eq_nil_iff.mp (List.suffix_nil.mp hindents))
    obtain ⟨hbody', hindents'⟩ := ih hv.step hne'
    exact ⟨hbody'.trans hbody, hindents.trans hindents'⟩

theorem run_openSection {indent' : String} {lines' : List String} {P : Prop} (m : Machine)
    (indent : String) (h : (((m.openSection word indent').bare.run keywords lines).sections =
      ((m.openSection word indent').run keywords lines').sections ↔ P)) :
    ((m.bare.openSection word indent).run keywords lines).body =
        ((m.openSection word indent').run keywords lines').body ∧
      (((m.bare.openSection word indent).run keywords lines).sections =
        ((m.openSection word indent').run keywords lines').sections ↔ indent = indent' ∧ P) := by
  have hv (m : Machine) (indent : String) (lines : List String) :
      (m.openSection word indent).Valid lines := ⟨_, _, rfl, rfl⟩
  obtain ⟨hbody, hs⟩ := kept_of_run keywords (hv m.bare indent lines) nofun
  obtain ⟨hbody', hs'⟩ := kept_of_run keywords (hv m indent' lines') nofun
  refine ⟨hbody.trans hbody'.symm, ?_⟩
  -- Sections once opened keep their indents, so two that differ here differ at the end.
  by_cases hi : indent = indent'
  · subst hi
    exact h.trans (and_iff_right rfl).symm
  · refine iff_of_false (fun he => hi ?_) fun hp => hi hp.1
    rw [he] at hs
    have hl : (m.bare.openSection word indent).sections.length =
        (m.openSection word indent').sections.length := rfl
    have hsuffix := List.suffix_of_suffix_length_le hs hs' (by simp [hl])
    exact List.head_eq_of_cons_eq (hsuffix.eq_of_length (by simp [hl]))

/-- A run over lines, beside a run over the lines with their blocks emptied. -/
theorem run_emptied (keywords : Option (List String)) (hs : Splits lines pieces)
    (hbare : Bare pieces) (hm : m.mode = .within part) (ho : Open m.sections part) :
    (m.bare.run keywords (pieces.flatMap Piece.emptied)).body = (m.run keywords lines).body ∧
      ((m.bare.run keywords (pieces.flatMap Piece.emptied)).sections =
        (m.run keywords lines).sections ↔ Undisturbed keywords pieces) := by
  -- Both runs pass through the same machines, notes apart, as long as no item indent differs.
  induction hs generalizing m part with
  | nil => exact ⟨rfl, iff_of_true rfl trivial⟩
  | @line text rest pieces hn hr ih =>
    have hbare' : Bare pieces := fun b hb => hbare b (List.mem_cons_of_mem _ hb)
    have hstep : m.step keywords text rest = m.inPart keywords part text rest :=
      step_eq_inPart hm (block?_eq_none_iff.mpr hn)
    have hstep' : m.bare.step keywords text (pieces.flatMap Piece.emptied) =
        m.bare.inPart keywords part text (pieces.flatMap Piece.emptied) :=
      step_eq_inPart hm (block?_emptied hr hn)
    rw [List.flatMap_cons, Piece.emptied, List.singleton_append, run, run, hstep, hstep',
      Undisturbed]
    by_cases ht : ∃ word, Titles keywords text word
    · obtain ⟨word, hword⟩ := ht
      have hm' : (m.openSection word (itemIndent keywords rest)).mode = .within .header := rfl
      have ho' : Open (m.openSection word (itemIndent keywords rest)).sections .header :=
        ⟨_, _, rfl, rfl⟩
      obtain ⟨-, hsections⟩ := ih hbare' hm' ho'
      obtain ⟨hbody, hiff⟩ :=
        run_openSection m (itemIndent keywords (pieces.flatMap Piece.emptied)) hsections
      rw [inPart_of_titles hword, inPart_of_titles hword]
      refine ⟨hbody, hiff.trans (and_congr_left fun _ => ?_)⟩
      rw [itemIndent_emptied_iff hr hbare']
      exact ⟨fun h _ => h, fun h => h ⟨word, hword⟩⟩
    · have hl := not_exists.mp ht
      obtain ⟨part', hm'⟩ : ∃ part', (m.inPart keywords part text rest).mode = .within part' :=
        exists_mode_inPart hm
      have hv : (m.inPart keywords part text rest).Valid rest := by
        have hv : m.Valid (text :: rest) := by rwa [Valid, hm]
        rw [← hstep]
        exact hv.step
      rw [Valid, hm'] at hv
      obtain ⟨hbody, hsections⟩ := ih hbare' hm' hv
      rw [bare_inPart hl m part _ rest]
      refine ⟨hbody, hsections.trans ?_⟩
      exact (and_iff_right fun h => absurd h ht).symm
  | @block b ending after pieces ho' hn hc hr ih =>
    have hbare' : Bare pieces := fun b hb => hbare b (List.mem_cons_of_mem _ hb)
    obtain ⟨ending, hc, he⟩ : ∃ ending, Line.Closes b.closer ending ∧
        (ending = "" ∨ ending = "\n") := by
      rcases hbare b List.mem_cons_self with hc | hc
      · exact ⟨_, hc, .inl rfl⟩
      · exact ⟨_, hc, .inr rfl⟩
    have hnote := bare_note m b.target (String.join (b.content.dropWhile Line.isBlank))
    rw [List.flatMap_cons, run_emptied_block (m := m.bare) hc he hm, run_block ho' hn hc hm,
      ← hnote, ← bare_add]
    have ho'' : Open (m.note b.target (String.join (b.content.dropWhile Line.isBlank))).sections
        part := by
      rwa [note_sections]
    exact ih hbare' (mode_note_add hm _ _ _) (ho''.add ending)

end Machine

theorem lines_emptied (text : String) :
    Text.lines (emptied text) = (Text.lines text).take 1 ++
      (Piece.ofLines ((Text.lines text).drop 1)).flatMap Piece.emptied := by
  have h := Text.whole_lines text
  rw [emptied]
  cases hl : Text.lines text with
  | nil => simp [Piece.ofLines, Text.lines, Text.splitLines]
  | cons first rest =>
    have hp : (Piece.line first :: Piece.ofLines rest).flatMap Piece.lines = first :: rest := by
      rw [List.flatMap_cons, (splits_ofLines rest).flatMap_lines, Piece.lines,
        List.singleton_append]
    rw [hl, ← hp] at h
    exact Text.lines_join (whole_emptied h)

theorem sections_result_inj {m m' : Machine} :
    m.result.sections = m'.result.sections ↔ m.sections = m'.sections := by
  have hinj : Function.Injective fun s : Section => { s with items := s.items.reverse } := by
    intro s s' h
    cases s
    cases s'
    simp_all
  rw [Machine.result, Machine.result, List.reverse_inj, (List.map_injective_iff.mpr hinj).eq_iff]

/-- Emptying the blocks keeps brief and body, and the sections just when no indent changes. -/
theorem ofText_emptied_iff (text : String) (keywords : Option (List String))
    (h : ∀ b, .block b ∈ Piece.ofLines ((Text.lines text).drop 1) →
      Line.Closes b.closer "" ∨ Line.Closes b.closer "\n") :
    (ofText (emptied text) keywords).brief = (ofText text keywords).brief ∧
      (ofText (emptied text) keywords).body = (ofText text keywords).body ∧
      ((ofText (emptied text) keywords).sections = (ofText text keywords).sections ↔
        Undisturbed keywords (Piece.ofLines ((Text.lines text).drop 1))) := by
  rw [ofText, ofText, lines_emptied, sections_result_inj]
  cases hl : Text.lines text with
  | nil => simp [Piece.ofLines, Undisturbed]
  | cons first rest =>
    rw [hl, List.drop_one, List.tail_cons] at h
    have hm : (Machine.start.step keywords first rest).mode = .within .body := rfl
    have ho : Machine.Open (Machine.start.step keywords first rest).sections .body := rfl
    obtain ⟨hbody, hsections⟩ := Machine.run_emptied keywords (splits_ofLines rest) h hm ho
    exact ⟨congrArg Text.firstLine hbody, hbody, hsections⟩

theorem ofText_emptied_sameIndent :
    let text := "A.\nArgs:\n @compatibility(np)\nB:\n @end_compatibility\n x: y"
    emptied text = "A.\nArgs:\n\n x: y" ∧
      (∀ b, .block b ∈ Piece.ofLines ((Text.lines text).drop 1) →
        Line.Closes b.closer "" ∨ Line.Closes b.closer "\n") ∧
      (ofText (emptied text) none).brief = (ofText text none).brief ∧
      (ofText (emptied text) none).body = (ofText text none).body ∧
      (ofText (emptied text) none).sections = (ofText text none).sections := by
  intro text
  have hl : Text.lines text =
      ["A.\n", "Args:\n", " @compatibility(np)\n", "B:\n", " @end_compatibility\n", " x: y"] := by
    decide +kernel
  have hp : Piece.ofLines ((Text.lines text).drop 1) =
      [.line "Args:\n", .block ⟨" @compatibility(np)\n", "np", ["B:\n"], " @end_compatibility\n"⟩,
        .line " x: y"] := by
    rw [hl]
    decide +kernel
  have h : ∀ b, .block b ∈ Piece.ofLines ((Text.lines text).drop 1) →
      Line.Closes b.closer "" ∨ Line.Closes b.closer "\n" := by
    rw [hp]
    intro b hb
    obtain rfl : b = _ := by simpa using hb
    exact .inr (Line.afterBlock?_eq_some_iff.mp (by decide +kernel))
  obtain ⟨hbrief, hbody, hsections⟩ := ofText_emptied_iff text none h
  refine ⟨by rw [emptied, hp, hl]; decide +kernel, h, hbrief, hbody, hsections.mpr ?_⟩
  rw [hp]
  refine ⟨fun _ b after hl => ?_, nofun, trivial⟩
  cases hl with
  | here => decide +kernel

/-- The section has no items, and it has one if the block counts as an empty line. -/
theorem sections_emptied_ne :
    let text := "Adds.\nArgs:\n@compatibility(np)\nSame.\n@end_compatibility\n  x: one\n"
    emptied text = "Adds.\nArgs:\n\n  x: one\n" ∧
      (∀ b, .block b ∈ Piece.ofLines ((Text.lines text).drop 1) → Line.Closes b.closer "\n") ∧
      (ofText text none).sections = [⟨"Args", "\n  x: one\n", "", []⟩] ∧
      (ofText (emptied text) none).sections = [⟨"Args", "\n", "  ", [⟨"x", " one\n"⟩]⟩] := by
  intro text
  have hl : Text.lines text = ["Adds.\n", "Args:\n", "@compatibility(np)\n", "Same.\n",
      "@end_compatibility\n", "  x: one\n"] := by
    decide +kernel
  have hp : Piece.ofLines ((Text.lines text).drop 1) =
      [.line "Args:\n", .block ⟨"@compatibility(np)\n", "np", ["Same.\n"], "@end_compatibility\n"⟩,
        .line "  x: one\n"] := by
    rw [hl]
    decide +kernel
  have he : emptied text = "Adds.\nArgs:\n\n  x: one\n" := by
    rw [emptied, hp, hl]
    decide +kernel
  refine ⟨he, ?_, by rw [ofText, hl]; decide +kernel, by rw [he]; decide +kernel⟩
  rw [hp]
  intro b hb
  obtain rfl : b = _ := by simpa using hb
  exact Line.afterBlock?_eq_some_iff.mp (by decide +kernel)

end RefDoc.Docstring
