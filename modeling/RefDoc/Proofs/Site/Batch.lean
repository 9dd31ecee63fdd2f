import RefDoc.Proofs.Page.Members
import RefDoc.Proofs.Site.Pages
import RefDoc.Proofs.Table
import RefDoc.Proofs.Text.Order
import RefDoc.Site.Batch

namespace RefDoc

def Event.progress? : Event → Option (Nat × Nat × String)
  | progress current total name => some (current, total, name)
  | warning _ | failure _ _ => none

def BuildError.Ordinary (e : BuildError) : Prop := (∃ u, e = unresolved u) ∨ ∃ o, e = overBound o

namespace Site

variable (site : Site)

def text? (name : String) : Option String :=
  (site.catalog.symbols.find? name).bind fun s =>
    match (site.page name s).result with
    | .ok page => some page.markdown
    | .error _ => none

def failure? (name : String) : Option BuildError :=
  (site.catalog.symbols.find? name).bind fun s =>
    match (site.page name s).result with
    | .ok _ => none
    | .error e => some e

/-- What a run tells about a name, once its turn has come. -/
def messages (name : String) : List Event :=
  match site.catalog.symbols.find? name with
  | none => []
  | some s => (site.page name s).warnings.map .warning ++
      ((site.failure? name).map (.failure name)).toList

variable {site} {name root given : String} {s : Symbol}

theorem failsOnly_docstring : FailsOnly BuildError.Ordinary (site.docstring s root) := by
  apply FailsOnly.bind
  · exact FailsOnly.mapError _ fun u => .inl ⟨u, rfl⟩
  · intro text
    exact FailsOnly.ok _

theorem failsOnly_signature : FailsOnly BuildError.Ordinary (site.signature s) :=
  FailsOnly.mapError _ fun o => .inr ⟨o, rfl⟩

theorem failsOnly_memberSignature : FailsOnly BuildError.Ordinary (site.memberSignature s) := by
  rw [memberSignature]
  split
  · exact failsOnly_signature.map some
  · exact FailsOnly.ok _

theorem failsOnly_memberUrl : FailsOnly BuildError.Ordinary (site.memberUrl name root) :=
  FailsOnly.mapError _ fun u => .inl ⟨u, rfl⟩

theorem failsOnly_classMember (c : Child) :
    FailsOnly BuildError.Ordinary (site.classMember root c) := by
  apply failsOnly_memberUrl.bind
  intro url
  apply failsOnly_docstring.bind
  intro doc
  exact failsOnly_memberSignature.bind fun signature? => FailsOnly.ok _

theorem failsOnly_moduleMember (c : Child) :
    FailsOnly BuildError.Ordinary (site.moduleMember root c) := by
  apply failsOnly_docstring.bind
  intro doc
  split
  · apply (failsOnly_memberUrl.map some).bind
    intro url?
    exact failsOnly_memberSignature.bind fun signature? => FailsOnly.ok _
  · exact failsOnly_memberSignature.bind fun signature? => FailsOnly.ok _

theorem failsOnly_body (hk : s.kind ≠ .other) :
    FailsOnly BuildError.Ordinary (site.body name root s given).result := by
  cases h : s.kind with
  | other => exact absurd h hk
  | function =>
    rw [body_function (.inl h)]
    exact failsOnly_signature.map _
  | property =>
    rw [body_function (.inr h)]
    exact failsOnly_signature.map _
  | cls =>
    rw [body_cls h, result_members]
    exact (FailsOnly.mapM failsOnly_classMember _).map _
  | module =>
    rw [body_module h, result_members]
    exact (FailsOnly.mapM failsOnly_moduleMember _).map _

theorem failsOnly_page (hk : s.kind ≠ .other) :
    FailsOnly BuildError.Ordinary (site.page name s).result := by
  simp only [Site.page, Report.result_bind, Report.result_ofExcept]
  apply failsOnly_docstring.bind
  intro doc
  exact (failsOnly_body hk).bind fun body => FailsOnly.ok _

theorem ordinary_of_failure? (hp : site.hasPage name = true) {e : BuildError}
    (h : site.failure? name = some e) : e.Ordinary := by
  obtain ⟨s, hs, he⟩ := Option.bind_eq_some_iff.mp h
  have hk : s.kind ≠ .other := by
    intro hk
    rw [hasPage_eq hs, Catalog.ownsPage_iff, hk] at hp
    cases hp.1
  split at he
  · cases he
  · next hr =>
    cases he
    exact failsOnly_page hk _ hr

/-- A name of a run is built or fails, and does not do both. -/
theorem text?_isSome_eq (hp : site.hasPage name = true) :
    (site.text? name).isSome = !(site.failure? name).isSome := by
  obtain ⟨s, hs, -⟩ := hasPage_iff.mp hp
  have hs : site.catalog.symbols.find? name = some s := hs
  rw [text?, failure?, hs, Option.bind_some, Option.bind_some]
  cases (site.page name s).result <;> rfl

theorem generateOne_eq (total : Nat) (b : Batch) (name : String) (i : Nat) :
    site.generateOne total b (name, i) =
      { pages := ((site.text? name).map (b.pages.insert (Name.pagePath name))).getD b.pages
        errors := b.errors ++ ((site.failure? name).map (name, ·)).toList
        events := b.events ++ .progress (i + 1) total name :: site.messages name } := by
  rw [generateOne, text?, failure?, messages, failure?]
  cases hs : site.catalog.symbols.find? name with
  | none => simp
  | some s =>
    dsimp only [Option.bind_some, Batch.add]
    cases hr : (site.page name s).result with
    | ok page => simp
    | error e => simp

def placed? (site : Site) (name : String) : Option (String × String) :=
  (site.text? name).map (Name.pagePath name, ·)

theorem foldl_generateOne (total : Nat) (names : List (String × Nat)) (b : Batch) :
    names.foldl (site.generateOne total) b =
      { pages := ((names.map Prod.fst).filterMap site.placed?).foldl
          (fun pages (path, text) => pages.insert path text) b.pages
        errors := b.errors ++ (names.map Prod.fst).filterMap fun name =>
          (site.failure? name).map (name, ·)
        events := b.events ++ names.flatMap fun (name, i) =>
          .progress (i + 1) total name :: site.messages name } := by
  induction names generalizing b with
  | nil => simp
  | cons entry names ih =>
    obtain ⟨name, i⟩ := entry
    rw [List.foldl_cons, ih, generateOne_eq]
    simp only [List.map_cons, List.filterMap_cons, List.flatMap_cons, List.append_assoc, placed?]
    congr 1
    · cases site.text? name <;> rfl
    · cases site.failure? name <;> simp

theorem generate_eq (chosen : Option (List String)) : site.generate chosen =
    { pages := .ofList ((site.pageNames chosen).filterMap site.placed?)
      errors := (site.pageNames chosen).filterMap fun name => (site.failure? name).map (name, ·)
      events := (site.pageNames chosen).zipIdx.flatMap fun (name, i) =>
        .progress (i + 1) (site.pageNames chosen).length name :: site.messages name } := by
  rw [generate, foldl_generateOne, List.zipIdx_map_fst]
  rfl

theorem filterMap_progress?_messages (name : String) :
    (site.messages name).filterMap Event.progress? = [] := by
  rw [messages]
  cases site.catalog.symbols.find? name with
  | none => rfl
  | some s =>
    rw [List.filterMap_append, List.filterMap_map]
    cases site.failure? name <;> simp [Function.comp_def, Event.progress?]

theorem filterMap_progress? (total : Nat) (names : List (String × Nat)) :
    (names.flatMap fun (name, i) => .progress (i + 1) total name :: site.messages name).filterMap
      Event.progress? = names.map fun (name, i) => (i + 1, total, name) := by
  induction names with
  | nil => rfl
  | cons entry names ih =>
    rw [List.flatMap_cons, List.filterMap_append, ih, List.filterMap_cons]
    simp [Event.progress?, filterMap_progress?_messages]

theorem hasPage_of_mem_pageNames {chosen : Option (List String)}
    (h : name ∈ site.pageNames chosen) : site.hasPage name = true := by
  have hm := List.mem_filter.mp (Text.mem_sort.mp h)
  exact ((Bool.and_eq_true _ _).mp hm.2).2

theorem map_fst_placed? (name : String) :
    (site.placed? name).map Prod.fst = (site.text? name).map fun _ => Name.pagePath name := by
  rw [placed?, Option.map_map]
  rfl

theorem mem_map_fst_entries {names : List String} {path : String} :
    path ∈ (names.filterMap site.placed?).map Prod.fst ↔
      ∃ name ∈ names, (site.text? name).isSome = true ∧ Name.pagePath name = path := by
  simp only [List.map_filterMap, List.mem_filterMap, map_fst_placed?, Option.map_eq_some_iff,
    Option.isSome_iff_exists, exists_and_right]

theorem map_snd_filter_entries (names : List String) (path : String) :
    ((names.filterMap site.placed?).filter (·.1 == path)).map Prod.snd =
      (names.filter (Name.pagePath · == path)).filterMap site.text? := by
  induction names with
  | nil => rfl
  | cons name names ih =>
    rw [List.filterMap_cons, List.filter_cons, placed?]
    cases ht : site.text? name with
    | none =>
      rw [Option.map_none, ih]
      split
      · rw [List.filterMap_cons_none ht]
      · rfl
    | some text =>
      rw [Option.map_some, List.filter_cons]
      dsimp only
      split
      · rw [List.map_cons, ih, List.filterMap_cons_some ht]
      · exact ih

theorem sublist_map_fst_entries (names : List String) :
    ((names.filterMap site.placed?).map Prod.fst).Sublist (names.map Name.pagePath) := by
  induction names with
  | nil => exact .slnil
  | cons name names ih =>
    rw [List.filterMap_cons, placed?]
    cases site.text? name with
    | none => exact ih.cons _
    | some text => exact ih.cons_cons _

theorem length_entries_add {names : List String} (h : ∀ name ∈ names, site.hasPage name = true) :
    (names.filterMap site.placed?).length +
      (names.filterMap fun name => (site.failure? name).map (name, ·)).length = names.length := by
  induction names with
  | nil => rfl
  | cons name names ih =>
    obtain ⟨hp, hnames⟩ := List.forall_mem_cons.mp h
    have hlen := ih hnames
    have hone := text?_isSome_eq hp
    rw [List.filterMap_cons, List.filterMap_cons, placed?, List.length_cons]
    cases ht : site.text? name with
    | none =>
      rw [ht] at hone
      cases hf : site.failure? name with
      | none => simp [hf] at hone
      | some e =>
        simp only [Option.map_none, Option.map_some, List.length_cons]
        omega
    | some text =>
      rw [ht] at hone
      cases hf : site.failure? name with
      | none =>
        simp only [Option.map_none, Option.map_some, List.length_cons]
        omega
      | some e => simp [hf] at hone

/-- What a run over some names has done. -/
structure Covers (site : Site) (names : List String) (batch : Batch) : Prop where
  progress : batch.events.filterMap Event.progress? =
    names.zipIdx.map fun (name, i) => (i + 1, names.length, name)
  errors : batch.errors = names.filterMap fun name => (site.failure? name).map (name, ·)
  ordinary : ∀ name e, (name, e) ∈ batch.errors → e.Ordinary
  settled : ∀ name ∈ names, (site.text? name).isSome = !(site.failure? name).isSome
  mem_pages : ∀ path, path ∈ batch.pages ↔
    ∃ name ∈ names, (site.text? name).isSome = true ∧ Name.pagePath name = path
  find?_pages : ∀ path, batch.pages.find? path =
    ((names.filter (Name.pagePath · == path)).filterMap site.text?).getLast?
  alone : ∀ name ∈ names,
    (∀ other ∈ names, Name.pagePath other = Name.pagePath name → other = name) →
    batch.pages.find? (Name.pagePath name) = site.text? name
  distinct : (names.map Name.pagePath).Nodup →
    batch.pages.entries = names.filterMap site.placed? ∧
      batch.pages.size + batch.errors.length = names.length
  nodup_paths : names.Nodup → (∀ name ∈ names, '/' ∉ name.toList) →
    (names.map Name.pagePath).Nodup

theorem find?_pages_generate (chosen : Option (List String)) (path : String) :
    (site.generate chosen).pages.find? path =
      (((site.pageNames chosen).filter (Name.pagePath · == path)).filterMap site.text?).getLast? := by
  rw [generate_eq, Table.find?_ofList, ← List.getLast?_map, map_snd_filter_entries]

theorem getLast?_filterMap_of_forall_eq (f : String → Option String) {names : List String}
    (hne : names ≠ []) (h : ∀ other ∈ names, other = name) :
    (names.filterMap f).getLast? = f name := by
  obtain ⟨n, hn⟩ := Nat.exists_eq_succ_of_ne_zero (mt List.eq_nil_of_length_eq_zero hne)
  rw [List.eq_replicate_of_mem h, hn]
  cases hf : f name with
  | none => simp [List.filterMap_replicate_of_none hf]
  | some text => simp [List.filterMap_replicate_of_some hf, List.getLast?_replicate]

theorem covers_generate (chosen : Option (List String)) :
    site.Covers (site.pageNames chosen) (site.generate chosen) where
  progress := by
    rw [generate_eq, filterMap_progress?]
  errors := by
    rw [generate_eq]
  ordinary := by
    intro name e hm
    rw [generate_eq] at hm
    obtain ⟨other, ho, he⟩ := List.mem_filterMap.mp hm
    obtain ⟨e', hf, heq⟩ := Option.map_eq_some_iff.mp he
    cases heq
    exact ordinary_of_failure? (hasPage_of_mem_pageNames ho) hf
  settled := by
    intro name hm
    exact text?_isSome_eq (hasPage_of_mem_pageNames hm)
  mem_pages := by
    intro path
    rw [generate_eq, Table.mem_ofList]
    exact mem_map_fst_entries
  find?_pages := find?_pages_generate chosen
  alone := by
    intro name hm halone
    have hmem : name ∈ (site.pageNames chosen).filter (Name.pagePath · == Name.pagePath name) :=
      List.mem_filter.mpr ⟨hm, beq_iff_eq.mpr rfl⟩
    rw [find?_pages_generate]
    apply getLast?_filterMap_of_forall_eq _ (List.ne_nil_of_mem hmem)
    intro other ho
    obtain ⟨ho, hp⟩ := List.mem_filter.mp ho
    exact halone other ho (beq_iff_eq.mp hp)
  distinct := by
    intro hnodup
    have he : (site.generate chosen).pages.entries =
        (site.pageNames chosen).filterMap site.placed? := by
      rw [generate_eq]
      exact Table.entries_ofList (hnodup.sublist (sublist_map_fst_entries _))
    refine ⟨he, ?_⟩
    rw [Table.size, he, generate_eq]
    exact length_entries_add fun name hm => hasPage_of_mem_pageNames hm
  nodup_paths := by
    intro hnodup hslash
    apply hnodup.map_on
    intro name hm other ho hpath
    exact Name.eq_of_pagePath_eq hpath (hslash name hm) (hslash other ho)

theorem generate_eq_of_perm {names names' : List String} (h : names.Perm names') :
    site.generate (some names) = site.generate (some names') := by
  have hnames : site.pageNames (some names) = site.pageNames (some names') := by
    apply Text.sort_eq_of_perm
    exact h.filter _
  rw [generate_eq, generate_eq, hnames]

/-- A run covers the canonical names with a page in ascending order, however they are asked for. -/
theorem generate_covers (site : Site) (chosen : Option (List String)) :
    (site.pageNames chosen).Perm ((chosen.getD site.catalog.symbols.keys).filter fun name =>
      decide (name ∉ site.catalog.aliases) && site.hasPage name) ∧
    (site.pageNames chosen).Pairwise (fun name other => Text.le name other = true) ∧
    site.Covers (site.pageNames chosen) (site.generate chosen) ∧
    ∀ names names', names.Perm names' →
      site.generate (some names) = site.generate (some names') := by
  refine ⟨?_, Text.pairwise_sortOn _ _, covers_generate chosen, fun _ _ h => generate_eq_of_perm h⟩
  have hf : (fun name => decide (name ∉ site.catalog.aliases) && site.hasPage name) =
      fun name => !site.isAlias name && site.hasPage name := by
    funext name
    rw [isAlias, decide_not]
  rw [hf]
  exact Text.sort_perm _

def boundTooOften : Site where
  catalog :=
    let function (bindings : List Binding) : Symbol :=
      ⟨.function, none, some ⟨⟨[], none, none, []⟩, bindings⟩, none⟩
    { symbols := .ofList [("g", function []), ("f", function [.positional [.null]])]
      aliases := .empty
      tree := .empty
      documents := .empty
      guides := .empty
      moduleNames := [] }
  options := {}
  direct := nofun

theorem pageNames_boundTooOften : boundTooOften.pageNames (some ["g", "f"]) = ["f", "g"] := by
  have hkept : (["g", "f"].filter fun name =>
      !boundTooOften.isAlias name && boundTooOften.hasPage name) = ["g", "f"] := by decide +kernel
  have hsort : Text.sort ["g", "f"] = Text.sort ["f", "g"] := Text.sort_eq_of_perm (.swap _ _ _)
  have hsorted : Text.sort ["f", "g"] = ["f", "g"] := List.mergeSort_of_pairwise (by decide +kernel)
  exact ((congrArg Text.sort hkept).trans hsort).trans hsorted

theorem failure?_boundTooOften : boundTooOften.failure? "f" = some (.overBound ⟨0, 1⟩) ∧
    boundTooOften.failure? "g" = none := by
  constructor
  · have hs : boundTooOften.catalog.symbols.find? "f" =
        some ⟨.function, none, some ⟨⟨[], none, none, []⟩, [.positional [.null]]⟩, none⟩ := by
      decide +kernel
    rw [failure?, hs, Option.bind_some]
    simp only [page, Report.result_bind, Report.result_ofExcept, docstring_of_none]
    rfl
  · have hs : boundTooOften.catalog.symbols.find? "g" =
        some ⟨.function, none, some ⟨⟨[], none, none, []⟩, []⟩, none⟩ := by
      decide +kernel
    rw [failure?, hs, Option.bind_some]
    simp only [page, Report.result_bind, Report.result_ofExcept, docstring_of_none]
    rfl

theorem generate_covers_boundTooOften : ["g", "f"].Perm ["f", "g"] ∧
    boundTooOften.generate (some ["g", "f"]) = boundTooOften.generate (some ["f", "g"]) ∧
    (boundTooOften.generate (some ["g", "f"])).errors = [("f", .overBound ⟨0, 1⟩)] ∧
    (boundTooOften.generate (some ["g", "f"])).pages.size = 1 := by
  obtain ⟨-, -, hcovers, hperm⟩ := generate_covers boundTooOften (some ["g", "f"])
  rw [pageNames_boundTooOften] at hcovers
  obtain ⟨hf, hg⟩ := failure?_boundTooOften
  have herrors :
      (boundTooOften.generate (some ["g", "f"])).errors = [("f", .overBound ⟨0, 1⟩)] := by
    rw [hcovers.errors]
    simp [hf, hg]
  obtain ⟨-, hsize⟩ := hcovers.distinct (by decide +kernel)
  rw [herrors] at hsize
  exact ⟨.swap _ _ _, hperm _ _ (.swap _ _ _), herrors, Nat.succ.inj hsize⟩

end Site

end RefDoc
