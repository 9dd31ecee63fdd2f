import RefDoc.Proofs.Json.Distinct
import RefDoc.Proofs.Manifest.Schema

namespace RefDoc.Manifest

inductive Demand
  | anything
  | shape (expected : Shape)
  | symbolKind
  | bindingKind

/-- Whether the value at a place, which may be missing, is what is asked for. -/
def Demand.Met : Demand → Option Json → Prop
  | anything, _ => True
  | shape expected, value => Shape.of value = expected
  | symbolKind, value => ∃ name ∈ kindNames, value = some (.str name)
  | bindingKind, value => ∃ name ∈ bindingNames, value = some (.str name)

def Demand.problem? : Demand → Option Json → Option Problem
  | anything, _ => none
  | shape expected, value =>
    if Shape.of value = expected then none else some (.wrongShape expected (Shape.of value))
  | symbolKind, some (.str name) => if name ∈ kindNames then none else some (.unknownKind name)
  | symbolKind, value => some (.kindShape (Shape.of value))
  | bindingKind, some (.str name) => if name ∈ bindingNames then none else some .unknownBinding
  | bindingKind, _ => some .unknownBinding

theorem Demand.problem?_eq_none_iff {demand : Demand} {value : Option Json} :
    demand.problem? value = none ↔ demand.Met value := by
  cases demand with
  | anything => simp [problem?, Met]
  | shape expected => simp [problem?, Met]
  | symbolKind =>
    rcases value with _ | _ | _ | _ | name | _ | _ <;> simp [problem?, Met]
  | bindingKind =>
    rcases value with _ | _ | _ | _ | name | _ | _ <;> simp [problem?, Met]

/-- A place in a value: how it is reached, what is asked there and what stands there. -/
structure Position where
  path : List Step
  demand : Demand
  value : Option Json

namespace Position

def under (step : Step) (p : Position) : Position := { p with path := step :: p.path }

def Met (p : Position) : Prop := p.demand.Met p.value

def issue? (p : Position) : Option Issue :=
  (p.demand.problem? p.value).map fun problem => ⟨p.path, problem⟩

theorem issue?_eq_none_iff {p : Position} : p.issue? = none ↔ p.Met := by
  rw [issue?, Option.map_eq_none_iff, Demand.problem?_eq_none_iff, Met]

instance (p : Position) : Decidable p.Met :=
  decidable_of_iff (p.issue? = none) issue?_eq_none_iff

theorem issue?_under (step : Step) (p : Position) :
    (p.under step).issue? = p.issue?.map (Issue.under step) := by
  rw [issue?, issue?, Option.map_map]
  rfl

end Position

def Presence.asksFor (presence : Presence) (value : Option Json) : Bool :=
  match presence with
  | required => true
  | optional | defaulted _ => value.isSome

mutual

/-- The places that a schema speaks of; nothing below a value of the wrong shape is visited. -/
def Schema.walk : Schema → Option Json → List Position
  | .any, value => [⟨[], .anything, value⟩]
  | .text, value => [⟨[], .shape .string, value⟩]
  | .kind, value => [⟨[], .symbolKind, value⟩]
  | .list item, value => ⟨[], .shape .array, value⟩ ::
    match value with
    | some (.arr items) => items.zipIdx.flatMap fun (v, i) =>
      (item.walk (some v)).map (Position.under (.index i))
    | _ => []
  | .record entry, value => ⟨[], .shape .object, value⟩ ::
    match value with
    | some (.obj members) => members.flatMap fun (key, v) =>
      (entry.walk (some v)).map (Position.under (.key key))
    | _ => []
  | .object fields, value => ⟨[], .shape .object, value⟩ ::
    match value with
    | some (.obj members) => fields.walk members
    | _ => []
  | .tagged positional keyword, value => ⟨[], .shape .object, value⟩ ::
    match value with
    | some (.obj members) => ⟨[.key "kind"], .bindingKind, Json.member? members "kind"⟩ ::
      match Json.member? members "kind" with
      | some (.str "positional") => positional.walk members
      | some (.str "keyword") => keyword.walk members
      | _ => []
    | _ => []

def Fields.walk : Fields → List (String × Json) → List Position
  | .nil, _ => []
  | .snoc before name presence schema, members => before.walk members ++
    if presence.asksFor (Json.member? members name) then
      (schema.walk (Json.member? members name)).map (Position.under (.key name))
    else []

end

namespace Schema

variable {positional keyword : Fields} {members : List (String × Json)}

theorem walk_positional (h : Json.member? members "kind" = some (.str "positional")) :
    (tagged positional keyword).walk (some (.obj members)) =
      ⟨[], .shape .object, some (.obj members)⟩ ::
        ⟨[.key "kind"], .bindingKind, some (.str "positional")⟩ :: positional.walk members := by
  simp only [walk, h]

theorem walk_keyword (h : Json.member? members "kind" = some (.str "keyword")) :
    (tagged positional keyword).walk (some (.obj members)) =
      ⟨[], .shape .object, some (.obj members)⟩ ::
        ⟨[.key "kind"], .bindingKind, some (.str "keyword")⟩ :: keyword.walk members := by
  simp only [walk, h]

theorem walk_unknown (hp : Json.member? members "kind" ≠ some (.str "positional"))
    (hk : Json.member? members "kind" ≠ some (.str "keyword")) :
    (tagged positional keyword).walk (some (.obj members)) =
      [⟨[], .shape .object, some (.obj members)⟩,
        ⟨[.key "kind"], .bindingKind, Json.member? members "kind"⟩] := by
  unfold walk
  grind

end Schema

/-- Whether a path leads to a value; only its last step may be to a member that is missing. -/
inductive Leads : Option Json → List Step → Option Json → Prop
  | here (value : Option Json) : Leads value [] value
  | member {members : List (String × Json)} {name : String} {path : List Step} {found : Option Json}
    (h : Leads (Json.member? members name) path found) :
    Leads (some (.obj members)) (.key name :: path) found
  | item {items : List Json} {i : Nat} {v : Json} {path : List Step} {found : Option Json}
    (hi : items[i]? = some v) (h : Leads (some v) path found) :
    Leads (some (.arr items)) (.index i :: path) found

mutual

theorem Schema.leads_of_mem_walk (schema : Schema) {value : Option Json}
    (hv : ∀ v ∈ value, v.Distinct) {p : Position} (hp : p ∈ schema.walk value) :
    Leads value p.path p.value := by
  match schema with
  | .any | .text | .kind =>
    obtain rfl := List.mem_singleton.mp hp
    exact .here value
  | .list item =>
    unfold Schema.walk at hp
    obtain rfl | hp := List.mem_cons.mp hp
    · exact .here value
    · split at hp
      · obtain ⟨⟨v, i⟩, hvi, hp⟩ := List.mem_flatMap.mp hp
        obtain ⟨q, hq, rfl⟩ := List.mem_map.mp hp
        have hi := List.mem_zipIdx_iff_getElem?.mp hvi
        have hdistinct : v.Distinct :=
          Json.distinct_arr_iff.mp (hv _ rfl) v (List.mem_of_getElem? hi)
        exact .item hi (item.leads_of_mem_walk (fun w hw => Option.some.inj hw ▸ hdistinct) hq)
      · cases hp
  | .record entry =>
    unfold Schema.walk at hp
    obtain rfl | hp := List.mem_cons.mp hp
    · exact .here value
    · split at hp
      · obtain ⟨⟨key, v⟩, hm, hp⟩ := List.mem_flatMap.mp hp
        obtain ⟨q, hq, rfl⟩ := List.mem_map.mp hp
        -- No key comes twice, so a look-up finds the very value that was walked.
        obtain ⟨hkeys, hvalues⟩ := Json.distinct_obj_iff.mp (hv _ rfl)
        refine .member ?_
        rw [(Json.member?_eq_some_iff hkeys).mpr hm]
        exact entry.leads_of_mem_walk (fun w hw => Option.some.inj hw ▸ hvalues _ hm) hq
      · cases hp
  | .object fields =>
    unfold Schema.walk at hp
    obtain rfl | hp := List.mem_cons.mp hp
    · exact .here value
    · split at hp
      · exact fields.leads_of_mem_walk (hv _ rfl) hp
      · cases hp
  | .tagged positional keyword =>
    unfold Schema.walk at hp
    obtain rfl | hp := List.mem_cons.mp hp
    · exact .here value
    · split at hp
      · obtain rfl | hp := List.mem_cons.mp hp
        · exact .member (.here _)
        · split at hp
          · exact positional.leads_of_mem_walk (hv _ rfl) hp
          · exact keyword.leads_of_mem_walk (hv _ rfl) hp
          · cases hp
      · cases hp

theorem Fields.leads_of_mem_walk (fields : Fields) {members : List (String × Json)}
    (hv : (Json.obj members).Distinct) {p : Position} (hp : p ∈ fields.walk members) :
    Leads (some (.obj members)) p.path p.value := by
  match fields with
  | .nil => cases hp
  | .snoc before name presence schema =>
    rw [Fields.walk] at hp
    obtain hp | hp := List.mem_append.mp hp
    · exact before.leads_of_mem_walk hv hp
    · split at hp
      · obtain ⟨q, hq, rfl⟩ := List.mem_map.mp hp
        exact .member (schema.leads_of_mem_walk (fun v hm => hv.member hm) hq)
      · cases hp

end

theorem Fields.starts_of_mem_walk {fields : Fields} {members : List (String × Json)} {p : Position}
    (hp : p ∈ fields.walk members) : ∃ name ∈ fields.names, ∃ path, p.path = .key name :: path := by
  match fields with
  | .nil => cases hp
  | .snoc before name presence schema =>
    rw [Fields.walk] at hp
    rw [Fields.names]
    obtain hp | hp := List.mem_append.mp hp
    · obtain ⟨n, hn, hpath⟩ := before.starts_of_mem_walk hp
      exact ⟨n, List.mem_append_left _ hn, hpath⟩
    · split at hp
      · obtain ⟨q, -, rfl⟩ := List.mem_map.mp hp
        exact ⟨name, List.mem_append_right _ (List.mem_singleton_self name), q.path, rfl⟩
      · cases hp

theorem paths_under (step : Step) (places : List Position) :
    (places.map (Position.under step)).map Position.path =
      (places.map Position.path).map (step :: ·) := by
  rw [List.map_map, List.map_map]
  rfl

theorem nodup_paths_under {step : Step} {places : List Position}
    (h : (places.map Position.path).Nodup) :
    ((places.map (Position.under step)).map Position.path).Nodup := by
  rw [paths_under]
  exact h.map fun _ _ heq => (List.cons.inj heq).2

theorem disjoint_paths_under {step step' : Step} (h : step ≠ step')
    (places places' : List Position) :
    ((places.map (Position.under step)).map Position.path).Disjoint
      ((places'.map (Position.under step')).map Position.path) := by
  rw [paths_under, paths_under]
  intro path hp hp'
  obtain ⟨rest, -, rfl⟩ := List.mem_map.mp hp
  obtain ⟨rest', -, heq⟩ := List.mem_map.mp hp'
  exact h (List.cons.inj heq).1.symm

theorem nodup_paths_cons {p : Position} {places : List Position} (hp : p.path = [])
    (hplaces : ∀ q ∈ places, q.path ≠ []) (h : (places.map Position.path).Nodup) :
    ((p :: places).map Position.path).Nodup := by
  rw [List.map_cons, List.nodup_cons, hp]
  refine ⟨fun hm => ?_, h⟩
  obtain ⟨q, hq, hpath⟩ := List.mem_map.mp hm
  exact hplaces q hq hpath

theorem nodup_paths_parts {α : Type} {parts : List α} {places : α → List Position} {p : Position}
    (step : α → Step) (hp : p.path = []) (hsteps : (parts.map step).Nodup)
    (h : ∀ a ∈ parts, ((places a).map Position.path).Nodup) :
    ((p :: parts.flatMap fun a => (places a).map (Position.under (step a))).map
      Position.path).Nodup := by
  refine nodup_paths_cons hp (fun q hq => ?_) ?_
  · obtain ⟨a, -, hq⟩ := List.mem_flatMap.mp hq
    obtain ⟨q', -, rfl⟩ := List.mem_map.mp hq
    exact List.cons_ne_nil _ _
  · rw [List.map_flatMap, List.nodup_flatMap]
    refine ⟨fun a ha => nodup_paths_under (h a ha), ?_⟩
    exact (List.pairwise_map.mp hsteps).imp fun hne => disjoint_paths_under hne _ _

theorem nodup_paths_tagged (fields : Fields) (members : List (String × Json)) {p kind : Position}
    (hp : p.path = []) (hkind : kind.path = [.key "kind"]) (hname : "kind" ∉ fields.names)
    (h : ((fields.walk members).map Position.path).Nodup) :
    ((p :: kind :: fields.walk members).map Position.path).Nodup := by
  refine nodup_paths_cons hp (fun q hq => ?_) ?_
  · obtain rfl | hq := List.mem_cons.mp hq
    · exact hkind ▸ List.cons_ne_nil _ _
    · obtain ⟨name, -, path, hpath⟩ := Fields.starts_of_mem_walk hq
      exact hpath ▸ List.cons_ne_nil _ _
  · rw [List.map_cons, List.nodup_cons, hkind]
    refine ⟨fun hm => ?_, h⟩
    obtain ⟨q, hq, hq'⟩ := List.mem_map.mp hm
    obtain ⟨name, hn, path, hpath⟩ := Fields.starts_of_mem_walk hq
    obtain ⟨rfl, -⟩ : name = "kind" ∧ path = [] := by
      simpa using hpath.symm.trans hq'
    exact hname hn

mutual

/-- No two places on the walk over a value have the same path. -/
theorem Schema.nodup_paths_walk (schema : Schema) (hs : schema.Proper) {value : Option Json}
    (hv : ∀ v ∈ value, v.Distinct) : ((schema.walk value).map Position.path).Nodup := by
  match schema with
  | .any | .text | .kind => exact List.nodup_singleton _
  | .list item =>
    unfold Schema.walk
    split
    · next items =>
      have hitems := Json.distinct_arr_iff.mp (hv _ rfl)
      refine nodup_paths_parts (fun m : Json × Nat => .index m.2) rfl ?_ fun m hm => ?_
      · have hindices : (items.zipIdx.map fun m => Step.index m.2) =
            (List.range items.length).map Step.index := by
          rw [List.range_eq_range', ← List.zipIdx_map_snd 0 items, List.map_map]
          rfl
        rw [hindices]
        exact List.nodup_range.map fun _ _ => Step.index.inj
      · have hm' := hitems m.1 (List.mem_of_getElem? (List.mem_zipIdx_iff_getElem?.mp hm))
        exact item.nodup_paths_walk hs fun w hw => Option.some.inj hw ▸ hm'
    · exact List.nodup_singleton _
  | .record entry =>
    unfold Schema.walk
    split
    · next members =>
      obtain ⟨hkeys, hvalues⟩ := Json.distinct_obj_iff.mp (hv _ rfl)
      refine nodup_paths_parts (fun m : String × Json => .key m.1) rfl ?_ fun m hm => ?_
      · have hnames : (members.map fun m => Step.key m.1) =
            (members.map Prod.fst).map Step.key := by
          rw [List.map_map]
          rfl
        rw [hnames]
        exact hkeys.map fun _ _ => Step.key.inj
      · exact entry.nodup_paths_walk hs fun w hw => Option.some.inj hw ▸ hvalues m hm
    · exact List.nodup_singleton _
  | .object fields =>
    unfold Schema.walk
    split
    · refine nodup_paths_cons rfl (fun q hq => ?_) (fields.nodup_paths_walk hs (hv _ rfl))
      obtain ⟨name, -, path, hpath⟩ := Fields.starts_of_mem_walk hq
      exact hpath ▸ List.cons_ne_nil _ _
    · exact List.nodup_singleton _
  | .tagged positional keyword =>
    -- The tag is no field of either side, so its own place is apart from those of the fields.
    obtain ⟨⟨hp, hpositional⟩, hk, hkeyword⟩ := hs
    unfold Schema.walk
    split
    · split
      · exact nodup_paths_tagged _ _ rfl rfl hp (positional.nodup_paths_walk hpositional (hv _ rfl))
      · exact nodup_paths_tagged _ _ rfl rfl hk (keyword.nodup_paths_walk hkeyword (hv _ rfl))
      · exact nodup_paths_tagged .nil [] rfl rfl nofun List.nodup_nil
    · exact List.nodup_singleton _

theorem Fields.nodup_paths_walk (fields : Fields) (hf : fields.Proper)
    {members : List (String × Json)} (hv : (Json.obj members).Distinct) :
    ((fields.walk members).map Position.path).Nodup := by
  match fields with
  | .nil => exact List.nodup_nil
  | .snoc before name presence schema =>
    obtain ⟨hname, hbefore, hschema⟩ := hf
    rw [Fields.walk, List.map_append]
    split
    · have hmember : ∀ v ∈ Json.member? members name, v.Distinct := fun v hm => hv.member hm
      have hplaces := schema.nodup_paths_walk hschema hmember
      refine (before.nodup_paths_walk hbefore hv).append (nodup_paths_under hplaces) ?_
      rw [paths_under]
      intro path hp hp'
      obtain ⟨q, hq, rfl⟩ := List.mem_map.mp hp
      obtain ⟨n, hn, rest, hpath⟩ := Fields.starts_of_mem_walk hq
      obtain ⟨rest', -, hpath'⟩ := List.mem_map.mp hp'
      obtain ⟨rfl, -⟩ : name = n ∧ rest' = rest := by
        simpa using hpath'.trans hpath
      exact hname hn
    · rw [List.map_nil, List.append_nil]
      exact before.nodup_paths_walk hbefore hv

end

end RefDoc.Manifest
