import RefDoc.Manifest.Load
import RefDoc.Proofs.Json.Distinct
import RefDoc.Proofs.Manifest.Decoder
import RefDoc.Proofs.Manifest.Normal
import RefDoc.Proofs.Steps

namespace RefDoc

namespace Json

variable {fields : List (String × Option Json)} {name : String}

theorem mem_present_iff {v : Json} : (name, v) ∈ present fields ↔ (name, some v) ∈ fields := by
  simp only [present, List.mem_filterMap, Option.map_eq_some_iff, Prod.mk.injEq]
  constructor
  · rintro ⟨⟨n, value⟩, hm, w, rfl, rfl, rfl⟩
    exact hm
  · intro hm
    exact ⟨_, hm, v, rfl, rfl, rfl⟩

theorem keys_present_sublist (fields : List (String × Option Json)) :
    ((present fields).map Prod.fst).Sublist (fields.map Prod.fst) := by
  induction fields with
  | nil => exact .slnil
  | cons f rest ih =>
    obtain ⟨name, _ | v⟩ := f
    · exact ih.cons name
    · exact ih.cons_cons name

theorem member?_present (h : (fields.map Prod.fst).Nodup) {value : Option Json}
    (hm : (name, value) ∈ fields) : member? (present fields) name = value := by
  have hkeys := h.sublist (keys_present_sublist fields)
  apply Option.ext
  intro v
  rw [member?_eq_some_iff hkeys, mem_present_iff]
  constructor
  · intro hv
    have hsame := List.inj_on_of_nodup_map h hv hm rfl
    exact (congrArg Prod.snd hsame).symm
  · rintro rfl
    exact hm

end Json

namespace Manifest

namespace Decoder

variable {α β : Type} {decoder : Decoder α} {schema : Schema}

theorem entries_toTable {members : List (String × α)} (h : (members.map Prod.fst).Nodup) :
    (toTable members).entries = members.filter (·.1 != reservedKey) := by
  change (Table.ofList members).entries.filter _ = _
  rw [Table.entries_ofList h]

theorem reservedKey_not_mem_toTable (members : List (String × α)) :
    reservedKey ∉ (toTable members).entries.map Prod.fst := by
  simp [toTable, Table.erase]

theorem toTable_entries {t : Table α} (h : reservedKey ∉ t.entries.map Prod.fst) :
    toTable t.entries = t := by
  apply Table.ext_entries
  rw [entries_toTable t.nodup, List.filter_eq_self]
  intro e he
  have hne : e.1 ≠ reservedKey := fun heq => h (heq ▸ List.mem_map_of_mem he)
  simpa using hne

theorem forall₂_toTable {R : Json → α → Prop} {members : List (String × Json)}
    {decoded : List (String × α)} (hkeys : (members.map Prod.fst).Nodup)
    (h : List.Forall₂ (fun m e => m.1 = e.1 ∧ R m.2 e.2) members decoded) :
    List.Forall₂ (fun m e => m.1 = e.1 ∧ R m.2 e.2) (members.filter (·.1 != reservedKey))
      (toTable decoded).entries := by
  have hnames : members.map Prod.fst = decoded.map Prod.fst := by
    rw [← List.forall₂_eq_eq_eq, List.forall₂_map_left_iff, List.forall₂_map_right_iff]
    exact h.imp fun _ _ hme => hme.1
  rw [entries_toTable (hnames ▸ hkeys)]
  exact List.rel_filter (p := fun m => m.1 != reservedKey) (q := fun e => e.1 != reservedKey)
    (fun _ _ hme => by simp only [hme.1]) h

/-- What holds of a value and what is decoded from it, once that is written back. -/
structure Settled (decoder : Decoder α) (schema : Schema) (write : α → Json) (v : Json) (a : α) :
    Prop where
  normal : schema.Normal (write a)
  keeps : schema.Keeps v (write a)
  again : decoder (some (write a)) = .valid a

def Normalizes (decoder : Decoder α) (schema : Schema) (write : α → Json) : Prop :=
  ∀ v a, v.Distinct → decoder (some v) = .valid a → decoder.Settled schema write v a

def NormalizesAs (decoder : Decoder α) (presence : Presence) (schema : Schema)
    (write : α → Option Json) : Prop :=
  ∀ value a, (∀ v ∈ value, v.Distinct) → decoder value = .valid a →
    presence.Admits schema.Normal (write a) ∧ presence.Carries schema.Keeps value (write a) ∧
      decoder (write a) = .valid a

namespace Normalizes

variable {write : α → Json}

theorem required (h : decoder.Normalizes schema write) (hnone : ∀ a, decoder none ≠ .valid a) :
    decoder.NormalizesAs .required schema fun a => some (write a) := by
  intro value a hv hd
  cases value with
  | none => exact absurd hd (hnone a)
  | some v =>
    have hsettled := h v a (hv v rfl) hd
    exact ⟨hsettled.normal, hsettled.keeps, hsettled.again⟩

theorem optional (h : decoder.Normalizes schema write) :
    (Decoder.optional decoder).NormalizesAs .optional schema (Option.map write) := by
  intro value a hv hd
  cases value with
  | none =>
    cases hd
    exact ⟨rfl, trivial, rfl⟩
  | some v =>
    obtain ⟨b, hb, rfl⟩ := Checked.map_eq_valid_iff.mp hd
    have hsettled := h v b (hv v rfl) hb
    exact ⟨hsettled.normal, hsettled.keeps,
      Checked.map_eq_valid_iff.mpr ⟨b, hsettled.again, rfl⟩⟩

theorem orElse (h : decoder.Normalizes schema write) (missing : α)
    (hnormal : schema.Normal (write missing))
    (hd : decoder (some (write missing)) = .valid missing) :
    (Decoder.orElse decoder missing).NormalizesAs (.defaulted (write missing)) schema
      fun a => some (write a) := by
  intro value a hv hvalue
  cases value with
  | none =>
    cases hvalue
    exact ⟨hnormal, rfl, hd⟩
  | some v =>
    have hsettled := h v a (hv v rfl) hvalue
    exact ⟨hsettled.normal, hsettled.keeps, hsettled.again⟩

theorem list (h : decoder.Normalizes schema write) :
    (Decoder.list decoder).Normalizes (.list schema) fun decoded => .arr (decoded.map write) := by
  intro v decoded hv hd
  rcases v with _ | _ | _ | _ | items | _
  case arr =>
    have hparts := (List.forall₂_and_left _ _).mpr
      ⟨Json.distinct_arr_iff.mp hv, itemsFrom_eq_valid_iff.mp hd⟩
    have hsettled := hparts.imp fun v a hva => h v a hva.1 hva.2
    have hall : ∀ a ∈ decoded, schema.Normal (write a) ∧ decoder (some (write a)) = .valid a := by
      intro a ha
      obtain ⟨v, -, hva⟩ := exists_left_of_forall₂ hsettled ha
      exact ⟨hva.normal, hva.again⟩
    refine ⟨⟨_, rfl, ?_⟩, ⟨_, _, rfl, rfl, ?_⟩, itemsFrom_eq_valid_iff.mpr ?_⟩
    · exact List.forall_mem_map.mpr fun a ha => (hall a ha).1
    · exact List.forall₂_map_right_iff.mpr (hsettled.imp fun _ _ hva => hva.keeps)
    · exact List.forall₂_map_left_iff.mpr (List.forall₂_same.mpr fun a ha => (hall a ha).2)
  all_goals cases hd

theorem record (h : decoder.Normalizes schema write) :
    (Decoder.record decoder).Normalizes (.record schema) (Json.ofTable write) := by
  intro v t hv hd
  rcases v with _ | _ | _ | _ | _ | members
  case obj =>
    obtain ⟨es, hes, rfl⟩ := Checked.map_eq_valid_iff.mp hd
    obtain ⟨hkeys, hvalues⟩ := Json.distinct_obj_iff.mp hv
    have hparts := (List.forall₂_and_left _ _).mpr ⟨hvalues, entries_eq_valid_iff.mp hes⟩
    have hsettled := forall₂_toTable (R := decoder.Settled schema write) hkeys
      (hparts.imp fun m e hme => ⟨hme.2.1, h m.2 e.2 hme.1 hme.2.2⟩)
    have hall : ∀ e ∈ (toTable es).entries,
        schema.Normal (write e.2) ∧ decoder (some (write e.2)) = .valid e.2 := by
      intro e he
      obtain ⟨m, -, -, hme⟩ := exists_left_of_forall₂ hsettled he
      exact ⟨hme.normal, hme.again⟩
    refine ⟨⟨_, rfl, ((toTable es).map write).nodup, ?_, ?_⟩, ⟨_, _, rfl, rfl, ?_⟩,
      Checked.map_eq_valid_iff.mpr ⟨(toTable es).entries, entries_eq_valid_iff.mpr ?_,
        toTable_entries (reservedKey_not_mem_toTable es)⟩⟩
    · change reservedKey ∉ ((toTable es).map write).keys
      rw [Table.keys_map]
      exact reservedKey_not_mem_toTable es
    · exact List.forall_mem_map.mpr fun e he => (hall e he).1
    · exact List.forall₂_map_right_iff.mpr (hsettled.imp fun _ _ hme => ⟨hme.1, hme.2.keeps⟩)
    · exact List.forall₂_map_left_iff.mpr (List.forall₂_same.mpr fun e he => ⟨rfl, (hall e he).2⟩)
  all_goals cases hd

theorem orEmptyList (h : decoder.Normalizes schema write) :
    (Decoder.orElse (Decoder.list decoder) []).NormalizesAs (.defaulted (.arr [])) (.list schema)
      fun decoded => some (.arr (decoded.map write)) :=
  h.list.orElse [] ⟨[], rfl, List.forall_mem_nil _⟩ rfl

theorem orEmptyTable (h : decoder.Normalizes schema write) :
    (Decoder.orElse (Decoder.record decoder) .empty).NormalizesAs (.defaulted (.obj []))
      (.record schema) fun t => some (Json.ofTable write t) :=
  h.record.orElse .empty ⟨[], rfl, List.nodup_nil, List.not_mem_nil, List.forall_mem_nil _⟩ rfl

end Normalizes

/-- Whether a record is settled once the fields of its row are written. -/
structure NormalizesFields {ρ : Type} (reads : List (String × Json) → ρ → Prop) (fields : Fields)
    (row : ρ → List (String × Option Json)) : Prop where
  names : ∀ r, (row r).map Prod.fst = fields.names
  settles : ∀ members r, (Json.obj members).Distinct → reads members r →
    ∀ members', (∀ f ∈ row r, Json.member? members' f.1 = f.2) →
      fields.Normal members' ∧ fields.Keeps members members' ∧ reads members' r

namespace NormalizesFields

variable {ρ : Type} {reads : List (String × Json) → ρ → Prop} {fields : Fields}
  {row : ρ → List (String × Option Json)}

theorem nil : NormalizesFields (fun _ (_ : ρ) => True) .nil fun _ => [] where
  names _ := rfl
  settles _ _ _ _ _ _ := ⟨trivial, trivial, trivial⟩

/-- One more field, whose value is `get` of the record. -/
theorem next (h : NormalizesFields reads fields row) (name : String) (get : ρ → α)
    {presence : Presence} {write : α → Option Json}
    (hfield : decoder.NormalizesAs presence schema write) :
    NormalizesFields
      (fun members r => reads members r ∧ field members name decoder = .valid (get r))
      (fields.snoc name presence schema) fun r => row r ++ [(name, write (get r))] where
  names r := by
    rw [List.map_append, h.names]
    rfl
  settles members r hv hr members' hrow := by
    obtain ⟨hearlier, hlast⟩ := hr
    obtain ⟨hrow, hname⟩ := List.forall_mem_append.mp hrow
    obtain ⟨hnormal, hkeeps, hagain⟩ := h.settles members r hv hearlier members' hrow
    have hwritten : Json.member? members' name = write (get r) := hname _ List.mem_cons_self
    rw [field_eq_valid_iff] at hlast ⊢
    rw [Fields.Normal, Fields.Keeps, hwritten]
    obtain ⟨hnormal', hkeeps', hagain'⟩ := hfield _ _ (fun v hm => hv.member hm) hlast
    exact ⟨⟨hnormal, hnormal'⟩, ⟨hkeeps, hkeeps'⟩, hagain, hagain'⟩

theorem present (h : NormalizesFields reads fields row) (others : List (String × Option Json))
    (hnames : (others.map Prod.fst ++ fields.names).Nodup) {members : List (String × Json)} {r : ρ}
    (hv : (Json.obj members).Distinct) (hr : reads members r) :
    ((Json.present (others ++ row r)).map Prod.fst).Sublist (others.map Prod.fst ++ fields.names) ∧
      (∀ f ∈ others, Json.member? (Json.present (others ++ row r)) f.1 = f.2) ∧
      fields.Normal (Json.present (others ++ row r)) ∧
      fields.Keeps members (Json.present (others ++ row r)) ∧
      reads (Json.present (others ++ row r)) r := by
  rw [← h.names r, ← List.map_append] at hnames ⊢
  have hmember (f) (hf : f ∈ others ++ row r) :
      Json.member? (Json.present (others ++ row r)) f.1 = f.2 := Json.member?_present hnames hf
  obtain ⟨hnormal, hkeeps, hagain⟩ := h.settles members r hv hr _
    fun f hf => hmember f (List.mem_append_right _ hf)
  exact ⟨Json.keys_present_sublist _, fun f hf => hmember f (List.mem_append_left _ hf), hnormal,
    hkeeps, hagain⟩

theorem object (h : NormalizesFields reads fields row) (hnames : fields.names.Nodup)
    {check : List (String × Json) → Checked ρ} {write : ρ → Json}
    (hreads : ∀ members r, check members = .valid r ↔ reads members r)
    (hwrite : ∀ r, write r = .obj (Json.present (row r))) :
    (Decoder.object check).Normalizes (.object fields) write := by
  intro v r hv hd
  rcases v with _ | _ | _ | _ | _ | members
  case obj =>
    have hr : reads members r := (hreads members r).mp hd
    obtain ⟨hkeys, -, hnormal, hkeeps, hagain⟩ := h.present [] hnames hv hr
    apply Settled.mk
    · rw [hwrite]
      exact ⟨_, rfl, hkeys, hnormal⟩
    · rw [hwrite]
      exact ⟨_, _, rfl, rfl, hkeeps⟩
    · rw [hwrite]
      exact (hreads _ r).mpr hagain
  all_goals cases hd

end NormalizesFields

end Decoder

open Decoder

theorem text_normalizes : text.Normalizes .text .str := by
  intro v s hv hd
  rcases v with _ | _ | _ | _ | _ | _
  case str =>
    cases hd
    exact ⟨⟨s, rfl⟩, rfl, rfl⟩
  all_goals cases hd

theorem any_normalizes : any.Normalizes .any id := by
  intro v a hv hd
  cases hd
  exact ⟨trivial, rfl, rfl⟩

theorem anyList_normalizes : anyList.Normalizes (.list .any) .arr := by
  simpa only [anyList_eq, List.map_id] using any_normalizes.list

theorem anyRecord_normalizes : anyRecord.Normalizes (.record .any) (Json.ofTable id) :=
  anyRecord_eq ▸ any_normalizes.record

theorem kind_normalizes : Normalizes kind .kind fun k => .str k.name := by
  intro v k hv hd
  rcases v with _ | _ | _ | name | _ | _
  case str =>
    have hk : Kind.ofName? name = some k := by
      rw [kind] at hd
      split at hd
      · next hk =>
        cases hd
        exact hk
      · cases hd
    obtain rfl : k.name = name := by simpa using List.find?_some hk
    have hagain : kind (some (.str k.name)) = .valid k := by rw [kind, Kind.ofName?_name]
    have hname : k.name ∈ kindNames := List.mem_map_of_mem (by cases k <;> decide)
    exact ⟨⟨k.name, hname, rfl⟩, rfl, hagain⟩
  all_goals cases hd

theorem binding_normalizes : binding.Normalizes .binding Binding.toJson := by
  have hlist := NormalizesFields.nil.next "values" id (anyList_normalizes.required nofun)
  have hrecord := NormalizesFields.nil.next "values" id (anyRecord_normalizes.required nofun)
  intro v b hv hd
  rcases v with _ | _ | _ | _ | _ | members
  case obj =>
    rw [binding, Decoder.object] at hd
    split at hd
    · next hk =>
      obtain ⟨values, hvalues, rfl⟩ := Checked.map_eq_valid_iff.mp hd
      obtain ⟨hkeys, htag, hnormal, hkeeps, -, hagain⟩ :=
        hlist.present [("kind", some (.str "positional"))] (by decide) hv ⟨trivial, hvalues⟩
      have hk' := htag _ List.mem_cons_self
      refine ⟨⟨_, rfl, .inl ⟨hk', hkeys, hnormal⟩⟩,
        ⟨_, _, rfl, rfl, hk.trans hk'.symm, fun _ => hkeeps, fun h => ?_⟩, ?_⟩
      · simp [hk] at h
      · rw [Binding.toJson, binding, Decoder.object]
        exact Checked.map_eq_valid_iff.mpr ⟨values, hagain, rfl⟩
    · next hk =>
      obtain ⟨values, hvalues, rfl⟩ := Checked.map_eq_valid_iff.mp hd
      obtain ⟨hkeys, htag, hnormal, hkeeps, -, hagain⟩ :=
        hrecord.present [("kind", some (.str "keyword"))] (by decide) hv ⟨trivial, hvalues⟩
      have hk' := htag _ List.mem_cons_self
      refine ⟨⟨_, rfl, .inr ⟨hk', hkeys, hnormal⟩⟩,
        ⟨_, _, rfl, rfl, hk.trans hk'.symm, fun h => ?_, fun _ => hkeeps⟩, ?_⟩
      · simp [hk] at h
      · rw [Binding.toJson, binding, Decoder.object]
        exact Checked.map_eq_valid_iff.mpr ⟨values, hagain, rfl⟩
    · cases hd
  all_goals cases hd

theorem location_normalizes : location.Normalizes .location Location.toJson := by
  have hpath := NormalizesFields.nil.next "path" Location.path (text_normalizes.required nofun)
  have hurl := hpath.next "url" Location.url? text_normalizes.optional
  apply hurl.object (by decide)
  · rintro members ⟨⟩
    simp [Checked.ap_eq_valid_iff, Checked.map_eq_valid_iff]
  · intro l
    rfl

theorem callable_normalizes : callable.Normalizes .callable Callable.toJson := by
  have hnames := NormalizesFields.nil.next "names" (fun c : Callable => c.signature.names)
    (text_normalizes.list.required nofun)
  have hvarargs := hnames.next "varargsName" (·.signature.varargs?) text_normalizes.optional
  have hvarkw := hvarargs.next "varkwName" (·.signature.varkw?) text_normalizes.optional
  have hdefaults := hvarkw.next "defaults" (·.signature.defaults) text_normalizes.orEmptyList
  have hbindings := hdefaults.next "bindings" Callable.bindings binding_normalizes.orEmptyList
  apply hbindings.object (by decide)
  · rintro members ⟨⟨⟩⟩
    simp [Checked.ap_eq_valid_iff, Checked.map_eq_valid_iff, and_assoc]
  · intro c
    rfl

theorem symbol_normalizes : symbol.Normalizes .symbol Symbol.toJson := by
  have hkind := NormalizesFields.nil.next "kind" Symbol.kind (kind_normalizes.required nofun)
  have hdocstring := hkind.next "docstring" Symbol.docstring? text_normalizes.optional
  have hsignature := hdocstring.next "signature" Symbol.callable? callable_normalizes.optional
  have hdefinedIn := hsignature.next "definedIn" Symbol.definedIn? location_normalizes.optional
  apply hdefinedIn.object (by decide)
  · rintro members ⟨⟩
    simp [Checked.ap_eq_valid_iff, Checked.map_eq_valid_iff, and_assoc]
  · intro s
    rfl

theorem document_normalizes : document.Normalizes .document Document.toJson := by
  have htitle := NormalizesFields.nil.next "title" Document.title (text_normalizes.required nofun)
  have hurl := htitle.next "url" Document.url (text_normalizes.required nofun)
  apply hurl.object (by decide)
  · rintro members ⟨⟩
    simp [Checked.ap_eq_valid_iff, Checked.map_eq_valid_iff]
  · intro d
    rfl

theorem guide_normalizes : guide.Normalizes .guide Guide.toJson := by
  have htitle := NormalizesFields.nil.next "title" Guide.title (text_normalizes.required nofun)
  have hurl := htitle.next "url" Guide.url (text_normalizes.required nofun)
  have hheading := hurl.next "sectionTitle" Guide.sectionTitle? text_normalizes.optional
  have htag := hheading.next "sectionTag" Guide.sectionTag? text_normalizes.optional
  apply htag.object (by decide)
  · rintro members ⟨⟩
    simp [Checked.ap_eq_valid_iff, Checked.map_eq_valid_iff, and_assoc]
  · intro g
    rfl

theorem decode_normalizes : decode.Normalizes .manifest toJson := by
  have hversion := NormalizesFields.nil.next "version" version (text_normalizes.required nofun)
  have hname := hversion.next "libraryName" libraryName (text_normalizes.required nofun)
  have hmodules := hname.next "moduleNames" moduleNames text_normalizes.orEmptyList
  have hsymbols := hmodules.next "symbols" symbols (symbol_normalizes.record.required nofun)
  have haliases := hsymbols.next "duplicateOf" aliases text_normalizes.orEmptyTable
  have htree := haliases.next "tree" tree text_normalizes.list.orEmptyTable
  have hdocuments := htree.next "docIndex" documents document_normalizes.orEmptyTable
  have hguides := hdocuments.next "guideIndex" guides guide_normalizes.list.orEmptyTable
  apply hguides.object (by decide)
  · rintro members ⟨⟩
    simp [Checked.ap_eq_valid_iff, Checked.map_eq_valid_iff, and_assoc]
  · intro m
    rfl

/-- What is read is of normal form, keeps the value and is read as itself. -/
theorem ofJson_normalizes {value : Json} (hv : value.Distinct) {path? : Option String}
    {m : Manifest} (h : ofJson value path? = .ok m) :
    Schema.manifest.Normal m.toJson ∧ Schema.manifest.Keeps value m.toJson ∧
      ∀ place?, ofJson m.toJson place? = .ok m := by
  have hd : decode (some value) = .valid m := by
    rw [ofJson] at h
    split at h
    · next hd =>
      cases h
      exact hd
    · cases h
  obtain ⟨hnormal, hkeeps, hagain⟩ := decode_normalizes value m hv hd
  refine ⟨hnormal, hkeeps, fun place? => ?_⟩
  rw [ofJson, hagain]

def sparse : Json := .obj [
  ("comment", .null),
  ("symbols", .obj [
    ("m.f", .obj [("colour", @Json.num 3 0 (by decide)), ("kind", .str "function"), ("signature", .obj [
      ("bindings", .arr [.obj [
        ("values", .obj [("__proto__", .null), ("x", .obj [("__proto__", .arr [.null])])]),
        ("kind", .str "keyword")]]),
      ("names", .arr [.str "y", .str "x"])])]),
    ("__proto__", .obj [("kind", .str "other")]),
    ("m", .obj [("docstring", .str ""), ("kind", .str "module")])]),
  ("libraryName", .str "lib"),
  ("version", .str "1")]

def sparseNormal : Json := .obj [
  ("version", .str "1"),
  ("libraryName", .str "lib"),
  ("moduleNames", .arr []),
  ("symbols", .obj [
    ("m.f", .obj [("kind", .str "function"), ("signature", .obj [
      ("names", .arr [.str "y", .str "x"]),
      ("defaults", .arr []),
      ("bindings", .arr [.obj [
        ("kind", .str "keyword"),
        ("values", .obj [("x", .obj [("__proto__", .arr [.null])])])]])])]),
    ("m", .obj [("kind", .str "module"), ("docstring", .str "")])]),
  ("duplicateOf", .obj []),
  ("tree", .obj []),
  ("docIndex", .obj []),
  ("guideIndex", .obj [])]

theorem ofJson_normalizes_sparse : sparse.Distinct ∧ ∃ m, ofJson sparse none = .ok m ∧
    m.toJson = sparseNormal ∧ Schema.manifest.Normal sparseNormal ∧
    Schema.manifest.Keeps sparse sparseNormal ∧ ofJson sparseNormal none = .ok m := by
  have hv : sparse.Distinct := by
    simp [sparse, Json.Distinct, Json.DistinctItems, Json.DistinctMembers]
  obtain ⟨m, hm, hnormal⟩ : ∃ m, ofJson sparse none = .ok m ∧ m.toJson = sparseNormal :=
    ⟨_, rfl, by rfl⟩
  obtain ⟨h, hkeeps, hagain⟩ := ofJson_normalizes hv hm
  rw [hnormal] at h hkeeps hagain
  exact ⟨hv, m, hm, hnormal, h, hkeeps, hagain none⟩

end Manifest

end RefDoc
