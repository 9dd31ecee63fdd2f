import RefDoc.Manifest.Load
import RefDoc.Proofs.Manifest.Decoder
import RefDoc.Proofs.Manifest.Walk

namespace RefDoc.Manifest

def issuesAt (places : List Position) : List Issue := places.filterMap Position.issue?

theorem issuesAt_append (places more : List Position) :
    issuesAt (places ++ more) = issuesAt places ++ issuesAt more := List.filterMap_append

theorem issuesAt_map_under (step : Step) (places : List Position) :
    issuesAt (places.map (Position.under step)) = (issuesAt places).map (Issue.under step) := by
  rw [issuesAt, issuesAt, List.filterMap_map, List.map_filterMap]
  congr 1
  funext p
  exact p.issue?_under step

theorem issuesAt_cons_of_met {p : Position} (h : p.Met) (places : List Position) :
    issuesAt (p :: places) = issuesAt places :=
  List.filterMap_cons_none (Position.issue?_eq_none_iff.mpr h)

theorem issuesAt_cons_of_issue {p : Position} {issue : Issue} (h : p.issue? = some issue)
    (places : List Position) : issuesAt (p :: places) = issue :: issuesAt places :=
  List.filterMap_cons_some h

theorem issuesAt_eq_nil_iff {places : List Position} :
    issuesAt places = [] ↔ ∀ p ∈ places, p.Met := by
  simp only [issuesAt, List.filterMap_eq_nil_iff, Position.issue?_eq_none_iff]

/-- Whether a checked value comes with just these issues, and is valid when there are none. -/
inductive Checked.Reports {α : Type u} : Checked α → List Issue → Prop
  | valid (a : α) : Reports (.valid a) []
  | invalid {issues : List Issue} (h : issues ≠ []) : Reports (.invalid issues) issues

namespace Checked.Reports

variable {α β : Type u} {x : Checked α} {issues more : List Issue}

theorem map (h : x.Reports issues) (f : α → β) : (f <$> x).Reports issues := by
  cases h with
  | valid a => exact .valid (f a)
  | invalid h => exact .invalid h

theorem ap {f : Checked (α → β)} (hf : f.Reports issues) (hx : x.Reports more) :
    (f <*> x).Reports (issues ++ more) := by
  cases hf with
  | valid f =>
    cases hx with
    | valid a => exact .valid (f a)
    | invalid h => exact .invalid h
  | invalid h =>
    cases hx with
    | valid a =>
      rw [List.append_nil]
      exact .invalid h
    | invalid _ => exact .invalid (List.append_ne_nil_of_left_ne_nil h _)

theorem under (h : x.Reports issues) (step : Step) :
    (x.under step).Reports (issues.map (Issue.under step)) := by
  cases h with
  | valid a => exact .valid a
  | invalid h => exact .invalid (mt List.map_eq_nil_iff.mp h)

theorem fail {issue : Issue} : (Checked.invalid [issue] : Checked α).Reports [issue] :=
  .invalid (List.cons_ne_nil _ _)

end Checked.Reports

namespace Decoder

variable {α β : Type} {decoder : Decoder α} {schema : Schema}

/-- Whether a decoder finds just what is wrong on the walk along a schema. -/
def Checks (decoder : Decoder α) (schema : Schema) : Prop :=
  ∀ value, (decoder value).Reports (issuesAt (schema.walk value))

def ChecksAs (decoder : Decoder α) (presence : Presence) (schema : Schema) : Prop :=
  ∀ value, (decoder value).Reports
    (if presence.asksFor value then issuesAt (schema.walk value) else [])

theorem Checks.required (h : decoder.Checks schema) : decoder.ChecksAs .required schema := h

theorem Checks.optional (h : decoder.Checks schema) :
    (Decoder.optional decoder).ChecksAs .optional schema := by
  intro value
  cases value with
  | none => exact .valid none
  | some v => exact (h (some v)).map some

theorem Checks.orElse (h : decoder.Checks schema) (missing : α) (written : Json) :
    (Decoder.orElse decoder missing).ChecksAs (.defaulted written) schema := by
  intro value
  cases value with
  | none => exact .valid missing
  | some v => exact h (some v)

theorem reports_wrongShape {expected : Shape} {value : Option Json}
    (h : Shape.of value ≠ expected) :
    (wrongShape expected value : Checked α).Reports (issuesAt [⟨[], .shape expected, value⟩]) := by
  have hissue : issuesAt [⟨[], .shape expected, value⟩] =
      [⟨[], .wrongShape expected (Shape.of value)⟩] := by
    simp [issuesAt, Position.issue?, Demand.problem?, h]
  rw [hissue]
  exact .fail

theorem checks_text : text.Checks .text := by
  intro value
  rcases value with _ | _ | _ | _ | s | _ | _
  case some.str =>
    exact .valid s
  all_goals exact reports_wrongShape (by simp [Shape.of])

theorem checks_itemsFrom (h : decoder.Checks schema) (i : Nat) (items : List Json) :
    (itemsFrom decoder i items).Reports (issuesAt ((items.zipIdx i).flatMap fun (v, j) =>
      (schema.walk (some v)).map (Position.under (.index j)))) := by
  induction items generalizing i with
  | nil => exact .valid []
  | cons v rest ih =>
    rw [List.zipIdx_cons, List.flatMap_cons, issuesAt_append, issuesAt_map_under]
    exact (((h (some v)).under (.index i)).map _).ap (ih (i + 1))

theorem checks_entries (h : decoder.Checks schema) (members : List (String × Json)) :
    (entries decoder members).Reports (issuesAt (members.flatMap fun (key, v) =>
      (schema.walk (some v)).map (Position.under (.key key)))) := by
  induction members with
  | nil => exact .valid []
  | cons member rest ih =>
    obtain ⟨key, v⟩ := member
    rw [List.flatMap_cons, issuesAt_append, issuesAt_map_under]
    exact (((h (some v)).under (.key key)).map _).ap ih

theorem Checks.list (h : decoder.Checks schema) : (Decoder.list decoder).Checks (.list schema) := by
  intro value
  rcases value with _ | _ | _ | _ | _ | items | _
  case some.arr =>
    have hmet : Position.Met ⟨[], .shape .array, some (.arr items)⟩ := rfl
    rw [Schema.walk, issuesAt_cons_of_met hmet]
    exact checks_itemsFrom h 0 items
  all_goals exact reports_wrongShape (by simp [Shape.of])

theorem Checks.record (h : decoder.Checks schema) :
    (Decoder.record decoder).Checks (.record schema) := by
  intro value
  rcases value with _ | _ | _ | _ | _ | _ | members
  case some.obj =>
    have hmet : Position.Met ⟨[], .shape .object, some (.obj members)⟩ := rfl
    rw [Schema.walk, issuesAt_cons_of_met hmet]
    exact (checks_entries h members).map _
  all_goals exact reports_wrongShape (by simp [Shape.of])

def ChecksFields {α : Type} (check : List (String × Json) → Checked α) (fields : Fields) : Prop :=
  ∀ members, (check members).Reports (issuesAt (fields.walk members))

theorem issuesAt_walk_snoc (before : Fields) (name : String) (presence : Presence) (schema : Schema)
    (members : List (String × Json)) :
    issuesAt ((before.snoc name presence schema).walk members) = issuesAt (before.walk members) ++
      (if presence.asksFor (Json.member? members name) then
        issuesAt (schema.walk (Json.member? members name)) else []).map
        (Issue.under (.key name)) := by
  rw [Fields.walk, issuesAt_append]
  split
  · rw [issuesAt_map_under]
  · rfl

theorem ChecksAs.first {presence : Presence} (h : decoder.ChecksAs presence schema) (make : α → β)
    (name : String) : ChecksFields (fun members => make <$> field members name decoder)
      (Fields.nil.snoc name presence schema) := by
  intro members
  rw [issuesAt_walk_snoc]
  exact ((h (Json.member? members name)).under (.key name)).map make

theorem ChecksFields.next {check : List (String × Json) → Checked (α → β)} {before : Fields}
    (hb : ChecksFields check before) {presence : Presence} (h : decoder.ChecksAs presence schema)
    (name : String) : ChecksFields (fun members => check members <*> field members name decoder)
      (before.snoc name presence schema) := by
  intro members
  rw [issuesAt_walk_snoc]
  exact (hb members).ap ((h (Json.member? members name)).under (.key name))

theorem ChecksFields.object {check : List (String × Json) → Checked α} {fields : Fields}
    (h : ChecksFields check fields) : (Decoder.object check).Checks (.object fields) := by
  intro value
  rcases value with _ | _ | _ | _ | _ | _ | members
  case some.obj =>
    have hmet : Position.Met ⟨[], .shape .object, some (.obj members)⟩ := rfl
    rw [Schema.walk, issuesAt_cons_of_met hmet]
    exact h members
  all_goals exact reports_wrongShape (by simp [Shape.of])

theorem checks_any : any.Checks .any := fun value => .valid (value.getD .null)

theorem checks_anyList : anyList.Checks (.list .any) := anyList_eq ▸ checks_any.list

theorem checks_anyRecord : anyRecord.Checks (.record .any) := anyRecord_eq ▸ checks_any.record

end Decoder

open Decoder

theorem ofName?_eq_none_iff {name : String} : Kind.ofName? name = none ↔ name ∉ kindNames := by
  simp [Kind.ofName?, kindNames]

theorem checks_kind : Decoder.Checks kind .kind := by
  intro value
  rcases value with _ | _ | _ | _ | name | _ | _
  case some.str =>
    rw [kind]
    cases hk : Kind.ofName? name with
    | some k =>
      have hmet : Position.Met ⟨[], .symbolKind, some (.str name)⟩ :=
        ⟨name, by_contra fun hn => Option.some_ne_none k (hk ▸ ofName?_eq_none_iff.mpr hn), rfl⟩
      rw [Schema.walk, issuesAt_cons_of_met hmet]
      exact .valid k
    | none =>
      have hn : name ∉ kindNames := ofName?_eq_none_iff.mp hk
      have hissue : issuesAt (Schema.kind.walk (some (.str name))) = [⟨[], .unknownKind name⟩] := by
        simp [Schema.walk, issuesAt, Position.issue?, Demand.problem?, hn]
      rw [hissue]
      exact .fail
  all_goals exact .fail

theorem problem?_bindingKind_of_ne {value : Option Json} (hp : value ≠ some (.str "positional"))
    (hk : value ≠ some (.str "keyword")) :
    Demand.bindingKind.problem? value = some .unknownBinding := by
  rcases value with _ | _ | _ | _ | name | _ | _
  case some.str =>
    have hn : name ∉ bindingNames := by
      simp only [bindingNames, List.mem_cons, List.not_mem_nil, or_false]
      rintro (rfl | rfl)
      · exact hp rfl
      · exact hk rfl
    rw [Demand.problem?, if_neg hn]
  all_goals rfl

theorem checks_location : location.Checks .location := by
  have hpath := checks_text.required.first Location.mk "path"
  exact (hpath.next checks_text.optional "url").object

theorem checks_binding : binding.Checks .binding := by
  have hpositional := checks_anyList.required.first Binding.positional "values"
  have hkeyword := checks_anyRecord.required.first Binding.keyword "values"
  intro value
  rcases value with _ | _ | _ | _ | _ | _ | members
  case some.obj =>
    have hmet : Position.Met ⟨[], .shape .object, some (.obj members)⟩ := rfl
    by_cases hp : Json.member? members "kind" = some (.str "positional")
    · have hread : binding (some (.obj members)) =
          Binding.positional <$> field members "values" anyList := by
        simp only [binding, Decoder.object, hp]
      have hkind : Position.Met ⟨[.key "kind"], .bindingKind, some (.str "positional")⟩ :=
        ⟨"positional", by decide, rfl⟩
      rw [hread, Schema.binding, Schema.walk_positional hp, issuesAt_cons_of_met hmet,
        issuesAt_cons_of_met hkind]
      exact hpositional members
    by_cases hk : Json.member? members "kind" = some (.str "keyword")
    · have hread : binding (some (.obj members)) =
          Binding.keyword <$> field members "values" anyRecord := by
        simp only [binding, Decoder.object, hk]
      have hkind : Position.Met ⟨[.key "kind"], .bindingKind, some (.str "keyword")⟩ :=
        ⟨"keyword", by decide, rfl⟩
      rw [hread, Schema.binding, Schema.walk_keyword hk, issuesAt_cons_of_met hmet,
        issuesAt_cons_of_met hkind]
      exact hkeyword members
    · have hread : binding (some (.obj members)) = (fail .unknownBinding).under (.key "kind") := by
        rw [binding, Decoder.object]
        split
        · next h => exact absurd h hp
        · next h => exact absurd h hk
        · rfl
      have hissue : Position.issue? ⟨[.key "kind"], .bindingKind, Json.member? members "kind"⟩ =
          some ⟨[.key "kind"], .unknownBinding⟩ := by
        rw [Position.issue?, problem?_bindingKind_of_ne hp hk, Option.map_some]
      rw [hread, Schema.binding, Schema.walk_unknown hp hk, issuesAt_cons_of_met hmet,
        issuesAt_cons_of_issue hissue]
      exact .fail
  all_goals exact reports_wrongShape (by simp [Shape.of])

theorem checks_callable : callable.Checks .callable := by
  have hnames := checks_text.list.required.first
    (fun names varargs? varkw? defaults bindings =>
      Callable.mk ⟨names, varargs?, varkw?, defaults⟩ bindings) "names"
  have hvarargs := hnames.next checks_text.optional "varargsName"
  have hvarkw := hvarargs.next checks_text.optional "varkwName"
  have hdefaults := hvarkw.next (checks_text.list.orElse [] (.arr [])) "defaults"
  have hbindings := hdefaults.next (checks_binding.list.orElse [] (.arr [])) "bindings"
  exact hbindings.object

theorem checks_symbol : symbol.Checks .symbol := by
  have hkind := checks_kind.required.first Symbol.mk "kind"
  have hdocstring := hkind.next checks_text.optional "docstring"
  have hsignature := hdocstring.next checks_callable.optional "signature"
  exact (hsignature.next checks_location.optional "definedIn").object

theorem checks_document : document.Checks .document := by
  have htitle := checks_text.required.first Document.mk "title"
  exact (htitle.next checks_text.required "url").object

theorem checks_guide : guide.Checks .guide := by
  have htitle := checks_text.required.first Guide.mk "title"
  have hurl := htitle.next checks_text.required "url"
  have hheading := hurl.next checks_text.optional "sectionTitle"
  exact (hheading.next checks_text.optional "sectionTag").object

theorem checks_decode : decode.Checks .manifest := by
  have hversion := checks_text.required.first Manifest.mk "version"
  have hname := hversion.next checks_text.required "libraryName"
  have hmodules := hname.next (checks_text.list.orElse [] (.arr [])) "moduleNames"
  have hsymbols := hmodules.next checks_symbol.record.required "symbols"
  have haliases := hsymbols.next (checks_text.record.orElse .empty (.obj [])) "duplicateOf"
  have htree := haliases.next (checks_text.list.record.orElse .empty (.obj [])) "tree"
  have hdocuments := htree.next (checks_document.record.orElse .empty (.obj [])) "docIndex"
  have hguides := hdocuments.next (checks_guide.list.record.orElse .empty (.obj [])) "guideIndex"
  exact hguides.object

def Issue.member? (issue : Issue) (name : String) : Option Json :=
  match issue.toJson with
  | .obj members => Json.member? members name
  | _ => none

def printedStep : Step → Json
  | .key name => .str name
  | .index i => .number i 0

def Problem.code : Problem → String
  | wrongShape .. | kindShape _ => "invalid_type"
  | unknownKind _ => "invalid_enum_value"
  | unknownBinding => "invalid_union_discriminator"

/-- The printed name of the type of what stands at a place. -/
def typeName : Option Json → String
  | none => "undefined"
  | some .null => "null"
  | some (.bool _) => "boolean"
  | some (.num _ _) => "number"
  | some (.str _) => "string"
  | some (.arr _) => "array"
  | some (.obj _) => "object"

theorem name_shape (value : Option Json) : (Shape.of value).name = typeName value := by
  rcases value with _ | _ | _ | _ | _ | _ | _ <;> rfl

theorem Issue.member?_path (issue : Issue) :
    issue.member? "path" = some (.arr (issue.path.map printedStep)) := by
  have hstep : Step.toJson = printedStep := by
    funext step
    cases step <;> rfl
  obtain ⟨path, problem⟩ := issue
  rw [← hstep]
  cases problem <;> rfl

theorem Issue.member?_code (issue : Issue) :
    issue.member? "code" = some (.str issue.problem.code) := by
  obtain ⟨path, problem⟩ := issue
  cases problem <;> rfl

theorem Demand.problem?_cases {demand : Demand} {value : Option Json} {problem : Problem}
    (h : demand.problem? value = some problem) :
    (∃ expected, problem = .wrongShape expected (Shape.of value)) ∨
      problem = .kindShape (Shape.of value) ∨ (∃ name, problem = .unknownKind name) ∨
      problem = .unknownBinding := by
  unfold Demand.problem? at h
  grind

theorem Issue.received_of_issue? {p : Position} {issue : Issue} (h : p.issue? = some issue)
    (hcode : issue.member? "code" = some (.str "invalid_type")) :
    issue.member? "received" = some (.str (typeName p.value)) := by
  rw [Issue.member?_code, Option.some.injEq, Json.str.injEq] at hcode
  obtain ⟨problem, hproblem, rfl⟩ := Option.map_eq_some_iff.mp h
  rw [← name_shape]
  obtain ⟨expected, rfl⟩ | rfl | ⟨name, rfl⟩ | rfl := Demand.problem?_cases hproblem
  · rfl
  · rfl
  · simp [Problem.code] at hcode
  · simp [Problem.code] at hcode

/-- What a list of issues says of the value that they were found in. -/
structure Accounts (value : Json) (issues : List Issue) : Prop where
  /-- One issue for each place that is not what is asked for, in the order of the walk. -/
  each : List.Forall₂ (fun p issue => p.issue? = some issue)
    ((Schema.manifest.walk (some value)).filter fun p => ¬ p.Met) issues
  nodup : (issues.map Issue.path).Nodup
  /-- Each is printed with the way to a part of the value, or to a member that an object lacks. -/
  located : ∀ issue ∈ issues, ∃ found, Leads (some value) issue.path found ∧
    issue.member? "path" = some (.arr (issue.path.map printedStep)) ∧
    issue.member? "code" = some (.str issue.problem.code) ∧
    (issue.member? "code" = some (.str "invalid_type") →
      issue.member? "received" = some (.str (typeName found)))

variable {value : Json} {issues : List Issue}

theorem forall₂_issuesAt (places : List Position) :
    List.Forall₂ (fun p issue => p.issue? = some issue) (places.filter fun p => ¬ p.Met)
      (issuesAt places) := by
  induction places with
  | nil => exact .nil
  | cons p rest ih =>
    cases hp : p.issue? with
    | none =>
      have hmet : p.Met := Position.issue?_eq_none_iff.mp hp
      rw [List.filter_cons_of_neg (by simpa using hmet), issuesAt_cons_of_met hmet]
      exact ih
    | some issue =>
      have hmet : ¬ p.Met := fun hm => by
        rw [Position.issue?_eq_none_iff.mpr hm] at hp
        cases hp
      rw [List.filter_cons_of_pos (by simpa using hmet), issuesAt_cons_of_issue hp]
      exact .cons hp ih

theorem path_of_issue? {p : Position} {issue : Issue} (h : p.issue? = some issue) :
    issue.path = p.path := by
  obtain ⟨problem, -, rfl⟩ := Option.map_eq_some_iff.mp h
  rfl

theorem paths_issuesAt (places : List Position) : (issuesAt places).map Issue.path =
    (places.filter fun p => ¬ p.Met).map Position.path := by
  rw [eq_comm, ← List.forall₂_eq_eq_eq, List.forall₂_map_left_iff, List.forall₂_map_right_iff]
  exact (forall₂_issuesAt places).imp fun _ _ h => (path_of_issue? h).symm

theorem accounts_issuesAt (hv : value.Distinct) :
    Accounts value (issuesAt (Schema.manifest.walk (some value))) where
  each := forall₂_issuesAt _
  nodup := by
    rw [paths_issuesAt]
    refine (Schema.nodup_paths_walk _ Schema.manifest_proper ?_).sublist (List.filter_sublist.map _)
    exact fun w hw => Option.some.inj hw ▸ hv
  located := by
    intro issue hissue
    obtain ⟨p, hp, hsome⟩ := List.mem_filterMap.mp hissue
    refine ⟨p.value, ?_, issue.member?_path, issue.member?_code, Issue.received_of_issue? hsome⟩
    rw [path_of_issue? hsome]
    exact Schema.leads_of_mem_walk _ (fun w hw => Option.some.inj hw ▸ hv) hp

theorem ofJson_cases (value : Json) (path? : Option String) :
    ((∃ m, ofJson value path? = .ok m) ∧ issuesAt (Schema.manifest.walk (some value)) = []) ∨
      (ofJson value path? = .error (.invalid (issuesAt (Schema.manifest.walk (some value))) path?) ∧
        issuesAt (Schema.manifest.walk (some value)) ≠ []) := by
  have hreports := checks_decode (some value)
  rw [ofJson]
  generalize issuesAt (Schema.manifest.walk (some value)) = issues at hreports ⊢
  generalize decode (some value) = checked at hreports ⊢
  cases hreports with
  | valid m => exact .inl ⟨⟨m, rfl⟩, rfl⟩
  | invalid h => exact .inr ⟨rfl, h⟩

/-- The error names each place that is not what is asked for, once and in order. -/
theorem ofJson_accounts (hv : value.Distinct) (path? : Option String) :
    ((∃ m, ofJson value path? = .ok m) ↔ ∀ p ∈ Schema.manifest.walk (some value), p.Met) ∧
      ∀ e, ofJson value path? = .error e →
        ∃ issues, e = .invalid issues path? ∧ Accounts value issues := by
  rw [← issuesAt_eq_nil_iff]
  obtain ⟨⟨m, hm⟩, hissues⟩ | ⟨he, hissues⟩ := ofJson_cases value path?
  · refine ⟨iff_of_true ⟨m, hm⟩ hissues, fun e he => ?_⟩
    cases hm.symm.trans he
  · refine ⟨iff_of_false (fun ⟨m, hm⟩ => ?_) hissues, fun e he' => ?_⟩
    · cases he.symm.trans hm
    · cases he.symm.trans he'
      exact ⟨_, rfl, accounts_issuesAt hv⟩

def faulty : Json := .obj [
  ("version", @Json.num 1 0 (by decide)),
  ("symbols", .obj [
    ("f", .obj [("kind", .str "macro"), ("signature", .obj [
      ("names", .arr [.str "x", .null]),
      ("bindings", .arr [
        .obj [("kind", .str "star"), ("values", .null)],
        .obj [("kind", .str "positional"), ("values", .obj [])],
        .obj [("kind", .str "keyword"), ("values", .obj [("key", .null)])],
        .obj []])])]),
    ("__proto__", .null)]),
  ("extra", .obj []),
  ("tree", .arr []),
  ("docIndex", .obj [("d", .obj [("title", .str "t"), ("url", .bool true)])]),
  ("guideIndex", .null)]

def faults : List Issue := [
  ⟨[.key "version"], .wrongShape .string .number⟩,
  ⟨[.key "libraryName"], .wrongShape .string .missing⟩,
  ⟨[.key "symbols", .key "f", .key "kind"], .unknownKind "macro"⟩,
  ⟨[.key "symbols", .key "f", .key "signature", .key "names", .index 1], .wrongShape .string .null⟩,
  ⟨[.key "symbols", .key "f", .key "signature", .key "bindings", .index 0, .key "kind"],
    .unknownBinding⟩,
  ⟨[.key "symbols", .key "f", .key "signature", .key "bindings", .index 1, .key "values"],
    .wrongShape .array .object⟩,
  ⟨[.key "symbols", .key "f", .key "signature", .key "bindings", .index 3, .key "kind"],
    .unknownBinding⟩,
  ⟨[.key "symbols", .key "__proto__"], .wrongShape .object .null⟩,
  ⟨[.key "tree"], .wrongShape .object .array⟩,
  ⟨[.key "docIndex", .key "d", .key "url"], .wrongShape .string .boolean⟩,
  ⟨[.key "guideIndex"], .wrongShape .object .null⟩]

def printedFaults : List (String × Option String) := [
  ("invalid_type", some "number"),
  ("invalid_type", some "undefined"),
  ("invalid_enum_value", some "macro"),
  ("invalid_type", some "null"),
  ("invalid_union_discriminator", none),
  ("invalid_type", some "object"),
  ("invalid_union_discriminator", none),
  ("invalid_type", some "null"),
  ("invalid_type", some "array"),
  ("invalid_type", some "boolean"),
  ("invalid_type", some "null")]

theorem ofJson_accounts_faulty : faulty.Distinct ∧
    ofJson faulty none = .error (.invalid faults none) ∧ Accounts faulty faults ∧
    faults.map (fun issue => (issue.member? "code", issue.member? "received")) =
      printedFaults.map (fun (code, received) => (some (.str code), received.map .str)) ∧
    report [⟨[.key "names", .index 10], .wrongShape .string .null⟩] = String.intercalate "\n"
      ["[",
        "  \x7b",
        "    \"code\": \"invalid_type\",",
        "    \"expected\": \"string\",",
        "    \"received\": \"null\",",
        "    \"path\": [",
        "      \"names\",",
        "      10",
        "    ],",
        "    \"message\": \"Expected string, received null\"",
        "  \x7d",
        "]"] := by
  have hv : faulty.Distinct := by
    simp [faulty, Json.Distinct, Json.DistinctItems, Json.DistinctMembers]
  have he : ofJson faulty none = .error (.invalid faults none) := by rfl
  obtain ⟨issues, hissues, haccounts⟩ := (ofJson_accounts hv none).2 _ he
  cases hissues
  have hprinted : faults.map (fun issue => (issue.member? "code", issue.member? "received")) =
      printedFaults.map (fun (code, received) => (some (.str code), received.map .str)) := by rfl
  exact ⟨hv, he, haccounts, hprinted, by decide +kernel⟩

/-- Of a text, too, each fault is named: reading it leaves no key twice. -/
theorem accounts_of_ofText {text path : String} {path? : Option String}
    (h : ofText text path = .error (.invalid issues path?)) :
    ∃ value, Json.read? text = some value ∧ path? = some path ∧ Accounts value issues := by
  unfold ofText at h
  split at h
  · cases h
  · next value hread =>
    refine ⟨value, hread, ?_⟩
    obtain ⟨⟨m, hm⟩, -⟩ | ⟨he, -⟩ := ofJson_cases value (some path)
    · cases hm.symm.trans h
    · cases he.symm.trans h
      exact ⟨rfl, accounts_issuesAt (Json.distinct_of_read? hread)⟩

end RefDoc.Manifest
