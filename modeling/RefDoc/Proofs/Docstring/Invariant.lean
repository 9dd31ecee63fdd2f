import RefDoc.Proofs.Docstring.Block

namespace RefDoc.Docstring.Machine

variable {keywords : Option (List String)} {m m' : Machine} {line : String} {rest : List String}

inductive Step (keywords : Option (List String)) (m : Machine) (line : String)
    (rest : List String) : Machine → Prop
  | first (hm : m.mode = .fresh) :
    Step keywords m line rest { m.add .body line with mode := .within .body }
  | closing {b : Block} (hm : m.mode = .block b) (hb : b.linesLeft = 0) :
    Step keywords m line rest
      { (m.note b.target b.content).add b.interrupted ((Line.afterBlock? line).getD line) with
        mode := .within b.interrupted }
  | content {b : Block} {linesLeft : Nat} (hm : m.mode = .block b)
    (hb : b.linesLeft = linesLeft + 1) :
    Step keywords m line rest
      { m with
        mode := .block { b with
          content := if b.content = "" ∧ Line.isBlank line then "" else b.content ++ line
          linesLeft } }
  | opening {part : Part} {target : String} {linesLeft : Nat} (hm : m.mode = .within part)
    (hb : block? line rest = some (target, linesLeft)) :
    Step keywords m line rest (m.openBlock part target linesLeft)
  | heading {part : Part} {keyword : String} (hm : m.mode = .within part)
    (hb : block? line rest = none) (hk : Line.keyword? keywords line = some keyword) :
    Step keywords m line rest (m.openSection keyword (itemIndent keywords rest))
  | item {part : Part} {name description : String} (hm : m.mode = .within part)
    (hb : block? line rest = none) (hk : Line.keyword? keywords line = none) (hp : part ≠ .body)
    (hi : m.item? line = some (name, description)) :
    Step keywords m line rest (m.openItem name description)
  | text {part : Part} (hm : m.mode = .within part) (hb : block? line rest = none)
    (hk : Line.keyword? keywords line = none) (hi : part = .body ∨ m.item? line = none) :
    Step keywords m line rest (m.add part line)

theorem step_inPart {part : Part} (hm : m.mode = .within part) (hb : block? line rest = none) :
    Step keywords m line rest (m.inPart keywords part line rest) := by
  unfold inPart
  split
  · next keyword hk => exact .heading hm hb hk
  · next hk =>
    cases part with
    | body => exact .text hm hb hk (.inl rfl)
    | header | item =>
      cases hi : m.item? line with
      | none => exact .text hm hb hk (.inr hi)
      | some entry => exact .item hm hb hk nofun hi

theorem step_inBlock {b : Block} (hm : m.mode = .block b) :
    Step keywords m line rest (m.inBlock b line) := by
  rw [inBlock]
  split
  · next hb => exact .closing hm hb
  · next hb => exact .content hm hb

theorem step_spec (keywords : Option (List String)) (m : Machine) (line : String)
    (rest : List String) : Step keywords m line rest (m.step keywords line rest) := by
  rw [step]
  split
  · next hm => exact .first hm
  · next b hm => exact step_inBlock hm
  · next part hm =>
    split
    · next target linesLeft hb => exact .opening hm hb
    · next hb => exact step_inPart hm hb

theorem step_eq_inPart {part : Part} (hm : m.mode = .within part) (hb : block? line rest = none) :
    m.step keywords line rest = m.inPart keywords part line rest := by
  simp only [step, hm, hb]

@[simp] theorem add_mode (m : Machine) (part : Part) (text : String) :
    (m.add part text).mode = m.mode := by
  cases part <;> rfl

@[simp] theorem note_body (m : Machine) (target content : String) :
    (m.note target content).body = m.body := by
  rw [note]
  split <;> rfl

@[simp] theorem note_sections (m : Machine) (target content : String) :
    (m.note target content).sections = m.sections := by
  rw [note]
  split <;> rfl

/-- Whether text can be added to a part. -/
def Open (sections : List Section) : Part → Prop
  | .body => sections = []
  | .header => ∃ s older, sections = s :: older ∧ s.items = []
  | .item => ∃ s older, sections = s :: older ∧ s.indent ≠ "" ∧ s.items ≠ []

/-- The invariant of a machine with `lines` still to be read. -/
def Valid (m : Machine) (lines : List String) : Prop :=
  match m.mode with
  | .fresh => Open m.sections .body
  | .within part => Open m.sections part
  | .block b => Open m.sections b.interrupted ∧ lines.findIdx? Line.closesBlock = some b.linesLeft

theorem valid_start (lines : List String) : start.Valid lines := rfl

theorem Open.add {part : Part} (h : Open m.sections part) (text : String) :
    Open (m.add part text).sections part := by
  cases part with
  | body => exact h
  | header =>
    obtain ⟨s, older, hs, hi⟩ := h
    rw [Machine.add, hs, List.modifyHead_cons]
    exact ⟨{ s with header := s.header ++ text }, older, rfl, hi⟩
  | item =>
    obtain ⟨s, older, hs, hn, hi⟩ := h
    rw [Machine.add, hs, List.modifyHead_cons]
    refine ⟨_, older, rfl, hn, ?_⟩
    simpa using hi

theorem exists_of_item? {name description : String} (h : m.item? line = some (name, description)) :
    ∃ s older, m.sections = s :: older ∧ s.indent ≠ "" ∧
      Line.Itemizes s.indent line name description := by
  rw [Machine.item?] at h
  split at h
  · cases h
  · next s older hs =>
    split at h
    · cases h
    · next hn => exact ⟨s, older, hs, hn, Line.item?_eq_some_iff.mp h⟩

theorem heads_of_keyword? {keyword : String} (h : Line.keyword? keywords line = some keyword) :
    Line.Heads line keyword :=
  Line.header?_eq_some_iff.mp (Option.filter_eq_some_iff.mp h).1

theorem Valid.of_step (h : m.Valid (line :: rest)) (hs : Step keywords m line rest m') :
    m'.Valid rest := by
  cases hs with
  | first hm =>
    rw [Valid, hm] at h
    exact h
  | closing hm hb =>
    rw [Valid, hm] at h
    exact Open.add (by simpa using h.1) _
  | content hm hb =>
    simp only [Valid, hm, List.findIdx?_cons, hb] at h
    obtain ⟨ho, hf⟩ := h
    refine ⟨ho, ?_⟩
    split at hf
    · cases hf
    · simpa using hf
  | opening hm hb =>
    rw [Valid, hm] at h
    exact ⟨h, (block?_eq_some_iff.mp hb).2⟩
  | heading hm hb hk => exact ⟨_, _, rfl, rfl⟩
  | item hm hb hk hp hi =>
    obtain ⟨s, older, hs, hn, -⟩ := exists_of_item? hi
    rw [openItem, hs, List.modifyHead_cons]
    exact ⟨_, older, rfl, hn, by simp⟩
  | text hm hb hk hi =>
    rw [Valid, hm] at h
    rw [Valid, add_mode, hm]
    exact h.add _

theorem Valid.step (h : m.Valid (line :: rest)) : (m.step keywords line rest).Valid rest :=
  h.of_step (step_spec keywords m line rest)

end RefDoc.Docstring.Machine
