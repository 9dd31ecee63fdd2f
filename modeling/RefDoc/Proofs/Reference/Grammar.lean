import RefDoc.Proofs.Reference.Address
import RefDoc.Proofs.Reference.Token

namespace RefDoc

open Reference

def Reference.Simple (text : String) : Prop := '$' ∉ text.toList ∧ '}' ∉ text.toList

namespace Target

/-- The targets that can be written. -/
inductive Proper : Target → Prop
  | symbol {name : String} (hne : name ≠ "") (hn : Simple name) : Proper (.symbol name)
  | document {name anchor : String} (hn : Simple name) (hhash : '#' ∉ name.toList)
    (ha : Simple anchor) (hanchor : anchor = "" ∨ ∃ rest, anchor = "#" ++ rest) :
    Proper (.document name anchor)

variable {target : Target}

theorem Proper.source_ne_nil (h : target.Proper) : target.source.toList ≠ [] := by
  cases h with
  | symbol hne hn => rwa [source, ne_eq, String.toList_eq_nil_iff]
  | document hn hhash ha hanchor => simp [source]

theorem Proper.brace_not_mem (h : target.Proper) : '}' ∉ target.source.toList := by
  cases h with
  | symbol hne hn => exact hn.2
  | document hn hhash ha hanchor => simp [source, hn.2, ha.2]

theorem ofText_of_dollar {text : String} {cs : List Char} (h : text.toList = '$' :: cs) :
    ofText text =
      match Text.cutFirst? '#' cs with
      | some (name, anchor) => document (String.ofList name) ("#" ++ String.ofList anchor)
      | none => document (String.ofList cs) "" := by
  rw [ofText, h]
  rfl

theorem ofText_source (h : target.Proper) : ofText target.source = target := by
  cases h with
  | symbol hne hn =>
    apply Resolver.ofText_eq_symbol
    intro hd
    exact hn.1 (List.mem_of_mem_head? hd)
  | @document name anchor hn hhash ha hanchor =>
    have hs : (source (.document name anchor)).toList = '$' :: (name.toList ++ anchor.toList) := by
      simp [source]
    rw [ofText_of_dollar hs]
    obtain rfl | hx := hanchor
    · rw [String.toList_empty, List.append_nil, Text.cutFirst?_eq_none_iff.mpr hhash]
      simp
    · obtain ⟨rest, rfl⟩ := hx
      have hr : ("#" ++ rest).toList = '#' :: rest.toList := by simp
      rw [hr, Text.cutFirst?_append hhash]
      simp

/-- Reading a target loses nothing of it. -/
theorem source_of_text (text : String) : (ofText text).source = text := by
  by_cases h : text.toList.head? = some '$'
  · obtain ⟨cs, hcs⟩ := List.head?_eq_some_iff.mp h
    rw [ofText_of_dollar hcs, ← String.toList_inj, hcs]
    split
    · next name anchor hc =>
      obtain ⟨rfl, -⟩ := Text.append_of_cutFirst? hc
      simp [source]
    · simp [source]
  · rw [Resolver.ofText_eq_symbol h, source]

end Target

namespace Reference

def source (ref : Reference) : String :=
  match ref.text? with
  | none => ref.target.source
  | some text => ref.target.source ++ "$" ++ text

theorem source_ofBody (body : String) : (ofBody body).source = body := by
  rw [ofBody]
  split
  · exact Target.source_of_text body
  · next target text hc =>
    obtain ⟨happ, -⟩ := Text.append_of_cutLast? hc
    split
    · exact Target.source_of_text body
    · rw [source, Target.source_of_text, ← String.toList_inj, happ]
      simp

structure Proper (ref : Reference) : Prop where
  target : ref.target.Proper
  text : ∀ text, ref.text? = some text → Simple text

variable {ref : Reference} {text : String}

theorem ofBody_of_source {target : Target} (h : target.Proper) :
    ofBody target.source = ⟨target, none⟩ := by
  have ht := Target.ofText_source h
  rw [ofBody]
  cases h with
  | symbol hne hn =>
    rw [Target.source, Text.cutLast?_eq_none_iff.mpr hn.1]
    exact congrArg (Reference.mk · none) ht
  | @document name anchor hn hhash ha hanchor =>
    have hs : (Target.source (.document name anchor)).toList =
        [] ++ '$' :: (name.toList ++ anchor.toList) := by
      simp [Target.source]
    have hdollar : '$' ∉ name.toList ++ anchor.toList := by simp [hn.1, ha.1]
    rw [hs, Text.cutLast?_append [] hdollar]
    exact congrArg (Reference.mk · none) ht

theorem ofBody_of_source_append {target : Target} (h : target.Proper) (ht : Simple text) :
    ofBody (target.source ++ "$" ++ text) = ⟨target, some text⟩ := by
  have hs : (target.source ++ "$" ++ text).toList =
      target.source.toList ++ '$' :: text.toList := by
    simp
  rw [ofBody, hs, Text.cutLast?_append _ ht.1]
  simp only [if_neg h.source_ne_nil, String.ofList_toList, Target.ofText_source h]

theorem proper_of_target {target : Target} (h : target.Proper) : Proper ⟨target, none⟩ :=
  ⟨h, nofun⟩

theorem proper_of_text {target : Target} (h : target.Proper) (ht : Simple text) :
    Proper ⟨target, some text⟩ := by
  apply Proper.mk h
  intro other ho
  cases ho
  exact ht

theorem ofBody_source (h : ref.Proper) : ofBody ref.source = ref := by
  obtain ⟨target, text?⟩ := ref
  cases text? with
  | none => exact ofBody_of_source h.target
  | some text => exact ofBody_of_source_append h.target (h.text text rfl)

theorem eq_of_source_eq {other : Reference} (h : ref.Proper) (h' : other.Proper)
    (he : ref.source = other.source) : ref = other := by
  rw [← ofBody_source h, he, ofBody_source h']

theorem Proper.brace_not_mem (h : ref.Proper) : '}' ∉ ref.source.toList := by
  have ht := h.target.brace_not_mem
  obtain ⟨target, text?⟩ := ref
  cases text? with
  | none => exact ht
  | some text => simp [source, ht, (h.text text rfl).2]

theorem bodyOf_of_not_mem (h : '}' ∉ text.toList) : bodyOf text = text := by
  rw [bodyOf]
  split
  · next body ht =>
    obtain ⟨he, -⟩ := token?_eq_some_iff.mp ht
    rw [he] at h
    simp at h
  · rfl

end Reference

namespace Resolver

variable {σ : Type u} (r : Resolver σ) {root name : String} {ref : Reference}

/-- Whether references may name symbols of a name. -/
def Within (name : String) : Prop :=
  r.moduleNames = [] ∨
    ∃ module ∈ r.moduleNames, name = module ∨ ∃ inner, name = module ++ "." ++ inner

theorem liesIn_iff {module : String} :
    liesIn name module = true ↔ name = module ∨ ∃ inner, name = module ++ "." ++ inner := by
  rw [liesIn, Bool.or_eq_true, beq_iff_eq, List.isPrefixOf_iff_prefix]
  apply or_congr Iff.rfl
  constructor
  · intro h
    obtain ⟨inner, hi⟩ := h
    exact ⟨String.ofList inner, by rw [← String.toList_inj, ← hi]; simp⟩
  · intro h
    obtain ⟨inner, rfl⟩ := h
    exact ⟨inner.toList, by simp⟩

theorem admits_iff : r.admits name = true ↔ r.Within name := by
  simp only [admits, Bool.or_eq_true, List.isEmpty_iff, List.any_eq_true, liesIn_iff, Within]

def Leads (root : String) (ref : Reference) : Prop :=
  match ref.target with
  | .symbol name => r.Within name ∧ ∃ address, r.url name root = .ok address
  | .document name _ => name ∈ r.documents

variable {r}

theorem resolve_source (h : ref.Proper) :
    r.resolve ref.source root = r.resolveBody ref.source root := by
  rw [resolve, bodyOf_of_not_mem h.brace_not_mem]

theorem resolveBody_symbol_iff {body linked : String} {text? : Option String}
    (hb : ofBody body = ⟨.symbol name, text?⟩) : r.resolveBody body root = .ok linked ↔
      r.Within name ∧ ∃ address, r.url name root = .ok address ∧
        linked = link (text?.getD (code name)) address := by
  simp only [resolveBody, hb, url_eq_ok_iff]
  by_cases hw : r.Within name
  · rw [if_pos (r.admits_iff.mpr hw)]
    cases r.url? name root with
    | none => simp
    | some address => simp [hw, eq_comm]
  · rw [if_neg (mt r.admits_iff.mp hw)]
    simp [hw]

theorem resolveBody_document_iff {body linked anchor : String} {text? : Option String}
    (hb : ofBody body = ⟨.document name anchor, text?⟩) : r.resolveBody body root = .ok linked ↔
      ∃ document, r.documents.find? name = some document ∧
        linked = link (text?.getD document.title) (Url.document root document.url ++ anchor) := by
  simp only [resolveBody, hb]
  cases r.documents.find? name with
  | none => simp
  | some document => simp [eq_comm]

theorem exists_resolveBody_iff (body : String) :
    (∃ linked, r.resolveBody body root = .ok linked) ↔ r.Leads root (ofBody body) := by
  cases hb : ofBody body with
  | mk target text? =>
    cases target with
    | symbol name => simp [resolveBody_symbol_iff hb, Leads]
    | document name anchor =>
      simp [resolveBody_document_iff hb, Leads, Table.mem_iff_isSome, Option.isSome_iff_exists]

theorem link_code (name address : String) :
    link (code name) address = "[`" ++ name ++ "`](" ++ address ++ ")" := by
  apply String.toList_inj.mp
  simp [link, code]

theorem resolve_symbol {address : String} {text? : Option String}
    (h : Proper ⟨.symbol name, text?⟩) (hw : r.Within name) (hu : r.url name root = .ok address) :
    r.resolve (source ⟨.symbol name, text?⟩) root =
      .ok (link (text?.getD (code name)) address) := by
  apply (resolve_source h).trans
  apply (resolveBody_symbol_iff (ofBody_source h)).mpr
  exact ⟨hw, address, hu, rfl⟩

theorem resolve_document {anchor : String} {document : Document} {text? : Option String}
    (h : Proper ⟨.document name anchor, text?⟩) (hd : r.documents.find? name = some document) :
    r.resolve (source ⟨.document name anchor, text?⟩) root =
      .ok (link (text?.getD document.title) (Url.document root document.url ++ anchor)) := by
  apply (resolve_source h).trans
  apply (resolveBody_document_iff (ofBody_source h)).mpr
  exact ⟨document, hd, rfl⟩

theorem exists_resolve_error (h : ref.Proper) (hl : ¬ r.Leads root ref) :
    ∃ e, r.resolve ref.source root = .error e := by
  rw [← ofBody_source h, ← exists_resolveBody_iff, ← resolve_source h] at hl
  cases hr : r.resolve ref.source root with
  | error e => exact ⟨e, rfl⟩
  | ok linked => exact absurd ⟨linked, hr⟩ hl

/-- Each of the four forms of a reference resolves to its link, and no two are written alike. -/
theorem resolve_unambiguous (r : Resolver σ) (root : String) :
    (∀ name address, Target.Proper (.symbol name) → r.Within name →
      r.url name root = .ok address →
        r.resolve name root = .ok ("[`" ++ name ++ "`](" ++ address ++ ")") ∧
        ∀ text, Simple text →
          r.resolve (name ++ "$" ++ text) root = .ok ("[" ++ text ++ "](" ++ address ++ ")")) ∧
    (∀ name anchor document, Target.Proper (.document name anchor) →
      r.documents.find? name = some document →
        r.resolve ("$" ++ name ++ anchor) root =
          .ok ("[" ++ document.title ++ "](" ++ (Url.document root document.url ++ anchor) ++ ")") ∧
        ∀ text, Simple text → r.resolve ("$" ++ name ++ anchor ++ "$" ++ text) root =
          .ok ("[" ++ text ++ "](" ++ (Url.document root document.url ++ anchor) ++ ")")) ∧
    (∀ ref other : Reference, ref.Proper → other.Proper → ref.source = other.source →
      ref = other) ∧
    ∀ ref : Reference, ref.Proper → ¬ r.Leads root ref →
      ∃ e, r.resolve ref.source root = .error e := by
  refine ⟨?_, ?_, ?_, ?_⟩
  · intro name address hn hw hu
    constructor
    · rw [← link_code]
      exact (resolve_symbol (proper_of_target hn) hw hu :)
    · intro text ht
      exact (resolve_symbol (proper_of_text hn ht) hw hu :)
  · intro name anchor document hn hd
    constructor
    · exact (resolve_document (proper_of_target hn) hd :)
    · intro text ht
      exact (resolve_document (proper_of_text hn ht) hd :)
  · intro ref other h h' he
    exact eq_of_source_eq h h' he
  · intro ref h hl
    exact exists_resolve_error h hl

theorem resolve_unambiguous_emptyName :
    ∃ r : Resolver Bool, r.resolve "pkg.f" "api" = .ok "[`pkg.f`](api/pkg/f.md)" ∧
      r.resolve "pkg.f$" "api" = .ok "[](api/pkg/f.md)" ∧
      r.resolve "$#a#b" "api" = .ok "[Start](../index.md#a#b)" ∧
      r.resolve "$$" "api" = .ok "[](../index.md)" ∧
      ∃ e, r.resolve "other.f$" "api" = .error e := by
  let r : Resolver Bool := ⟨.ofList [("pkg.f", true), ("other.f", true)], .empty,
    .ofList [("", ⟨"Start", "index.md"⟩)], ["pkg"], fun _ page => page⟩
  have hempty : Simple "" := ⟨by decide, by decide⟩
  have hsymbol : Target.Proper (.symbol "pkg.f") := .symbol (by decide) ⟨by decide, by decide⟩
  have hother : Target.Proper (.symbol "other.f") := .symbol (by decide) ⟨by decide, by decide⟩
  have hanchor : Target.Proper (.document "" "#a#b") :=
    .document hempty (by decide) ⟨by decide, by decide⟩ (.inr ⟨"a#b", by decide⟩)
  have hdocument : Target.Proper (.document "" "") := .document hempty (by decide) hempty (.inl rfl)
  have hd : r.documents.find? "" = some ⟨"Start", "index.md"⟩ := by decide +kernel
  have hu : r.url "pkg.f" "api" = .ok "api/pkg/f.md" := by decide +kernel
  have hw : r.Within "pkg.f" := r.admits_iff.mp (by decide +kernel)
  obtain ⟨hs, hdoc, -, herror⟩ := resolve_unambiguous r "api"
  obtain ⟨hname, htext⟩ := hs "pkg.f" "api/pkg/f.md" hsymbol hw hu
  refine ⟨r, hname, htext "" hempty, ?_, ?_, ?_⟩
  · have hl : "[" ++ "Start" ++ "](" ++ (Url.document "api" "index.md" ++ "#a#b") ++ ")" =
        "[Start](../index.md#a#b)" := by decide +kernel
    exact (hdoc "" "#a#b" _ hanchor hd).1.trans (congrArg Except.ok hl)
  · have hl : "[" ++ "" ++ "](" ++ (Url.document "api" "index.md" ++ "") ++ ")" =
        "[](../index.md)" := by
      decide +kernel
    exact ((hdoc "" "" _ hdocument hd).2 "" hempty).trans (congrArg Except.ok hl)
  · apply herror ⟨.symbol "other.f", some ""⟩ (proper_of_text hother hempty)
    rintro ⟨hw, -⟩
    exact absurd (r.admits_iff.mpr hw) (by decide +kernel)

end Resolver

end RefDoc
