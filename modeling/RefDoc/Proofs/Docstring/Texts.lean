import RefDoc.Docstring.Machine
import RefDoc.Table.Lemmas

namespace RefDoc

def Section.map (f : String → String) (s : Section) : Section where
  keyword := s.keyword
  header := f s.header
  indent := s.indent
  items := s.items.map fun item => { item with description := f item.description }

namespace Docstring

def Mode.map (f : String → String) : Mode → Mode
  | .fresh => .fresh
  | .within part => .within part
  | .block b => .block { b with content := f b.content }

namespace Machine

def map (f : String → String) (m : Machine) : Machine where
  mode := m.mode.map f
  body := f m.body
  sections := m.sections.map (Section.map f)
  notes := m.notes.map f

def EachOf (P : String → Prop) (s : Section) : Prop :=
  P s.header ∧ ∀ item ∈ s.items, P item.description

structure Each (P : String → Prop) (m : Machine) : Prop where
  body : P m.body
  sections : ∀ s ∈ m.sections, EachOf P s
  notes : ∀ entry ∈ m.notes.entries, P entry.2
  block : ∀ b, m.mode = .block b → P b.content

variable {P Q : String → Prop} {f : String → String} {m : Machine} {text : String}

theorem forall_mem_modifyHead {α : Type u} {P Q : α → Prop} {f : α → α} {xs : List α}
    (h : ∀ x ∈ xs, P x) (hf : ∀ x, P x → Q (f x)) (hPQ : ∀ x, P x → Q x) :
    ∀ x ∈ xs.modifyHead f, Q x := by
  cases xs with
  | nil => simp
  | cons x xs =>
    obtain ⟨hx, hxs⟩ := List.forall_mem_cons.mp h
    exact List.forall_mem_cons.mpr ⟨hf x hx, fun y hy => hPQ y (hxs y hy)⟩

theorem EachOf.imp {s : Section} (h : EachOf P s) (hPQ : ∀ s, P s → Q s) : EachOf Q s :=
  ⟨hPQ _ h.1, fun item hi => hPQ _ (h.2 item hi)⟩

theorem Each.imp (h : m.Each P) (hPQ : ∀ s, P s → Q s) : m.Each Q where
  body := hPQ _ h.body
  sections s hs := (h.sections s hs).imp hPQ
  notes entry he := hPQ _ (h.notes entry he)
  block b hb := hPQ _ (h.block b hb)

theorem Each.add (h : m.Each P) (ha : ∀ s, P s → Q (s ++ text)) (hPQ : ∀ s, P s → Q s)
    (part : Part) : (m.add part text).Each Q := by
  have hm := h.imp hPQ
  cases part with
  | body => exact { hm with body := ha _ h.body }
  | header =>
    refine { hm with sections := forall_mem_modifyHead h.sections ?_ fun s hs => hs.imp hPQ }
    intro s hs
    exact ⟨ha _ hs.1, fun item hi => hPQ _ (hs.2 item hi)⟩
  | item =>
    refine { hm with sections := forall_mem_modifyHead h.sections ?_ fun s hs => hs.imp hPQ }
    intro s hs
    exact ⟨hPQ _ hs.1, forall_mem_modifyHead hs.2 (fun item => ha _) fun item => hPQ _⟩

theorem Each.note {content : String} (h : m.Each P) (target : String) (hc : P content) :
    (m.note target content).Each P := by
  rw [Machine.note]
  split
  · exact h
  · refine { h with notes := fun entry he => ?_ }
    obtain rfl | he := Table.mem_insertEntry he
    · exact hc
    · exact h.notes entry he

theorem map_add (ha : m.Each P) (hf : ∀ s, P s → f (s ++ text) = f s ++ f text) (part : Part) :
    (m.add part text).map f = (m.map f).add part (f text) := by
  cases part with
  | body => simp [Machine.add, map, hf _ ha.body]
  | header =>
    cases hs : m.sections with
    | nil => simp [Machine.add, map, hs]
    | cons s older =>
      have hh := (ha.sections s (by simp [hs])).1
      simp [Machine.add, map, hs, Section.map, hf _ hh]
  | item =>
    cases hs : m.sections with
    | nil => simp [Machine.add, map, hs]
    | cons s older =>
      obtain ⟨-, hi⟩ := ha.sections s (by simp [hs])
      cases hd : s.items with
      | nil => simp [Machine.add, map, hs, Section.map, hd]
      | cons item items =>
        have hitem := hi item (by simp [hd])
        simp [Machine.add, map, hs, Section.map, hd, hf _ hitem]

theorem map_note (f : String → String) (m : Machine) (target content : String) :
    (m.note target content).map f = (m.map f).note target (f content) := by
  rw [Machine.note, Machine.note]
  split
  · rfl
  · simp [map, Table.map_insert]

end Machine

end Docstring

end RefDoc
