import Mathlib.Algebra.Group.Int.Defs
import Mathlib.Data.List.Nodup
import Mathlib.Data.List.Perm.Basic
import RefDoc.Json.Reader
import RefDoc.Proofs.Table

namespace RefDoc.Json

mutual

/-- Whether no object in a value has a key twice. -/
def Distinct : Json → Prop
  | arr items => DistinctItems items
  | obj members => (members.map Prod.fst).Nodup ∧ DistinctMembers members
  | null | bool _ | num _ _ | str _ => True

def DistinctItems : List Json → Prop
  | [] => True
  | v :: rest => v.Distinct ∧ DistinctItems rest

def DistinctMembers : List (String × Json) → Prop
  | [] => True
  | (_, v) :: rest => v.Distinct ∧ DistinctMembers rest

end

variable {items : List Json} {members : List (String × Json)} {name : String} {v : Json}

theorem distinctItems_iff : DistinctItems items ↔ ∀ v ∈ items, v.Distinct := by
  induction items with
  | nil => simp [DistinctItems]
  | cons v rest ih => simp [DistinctItems, ih]

theorem distinctMembers_iff : DistinctMembers members ↔ ∀ m ∈ members, m.2.Distinct := by
  induction members with
  | nil => simp [DistinctMembers]
  | cons m rest ih => simp [DistinctMembers, ih]

theorem distinct_arr_iff : (arr items).Distinct ↔ ∀ v ∈ items, v.Distinct := by
  rw [Distinct, distinctItems_iff]

theorem distinct_obj_iff : (obj members).Distinct ↔
    (members.map Prod.fst).Nodup ∧ ∀ m ∈ members, m.2.Distinct := by
  rw [Distinct, distinctMembers_iff]

theorem member?_eq_some_iff (h : (members.map Prod.fst).Nodup) :
    member? members name = some v ↔ (name, v) ∈ members :=
  Table.find?_eq_some_iff (t := ⟨members, h⟩)

theorem Distinct.member (h : (obj members).Distinct) (hm : member? members name = some v) :
    v.Distinct := by
  obtain ⟨hkeys, hvalues⟩ := distinct_obj_iff.mp h
  exact hvalues _ ((member?_eq_some_iff hkeys).mp hm)

theorem indexesFirst_perm (members : List (String × Json)) :
    (indexesFirst members).Perm members := by
  have hsort := List.mergeSort_perm (members.filter fun m => (arrayIndex? m.1).isSome)
    fun a b => (arrayIndex? a.1).getD 0 ≤ (arrayIndex? b.1).getD 0
  have hrest : members.filter (fun m => (arrayIndex? m.1).isNone) =
      members.filter fun m => !(arrayIndex? m.1).isSome := by
    simp
  rw [indexesFirst, hrest]
  exact (hsort.append_right _).trans (List.filter_append_perm _ _)

theorem distinct_ofMembers (h : ∀ m ∈ members, m.2.Distinct) : (ofMembers members).Distinct := by
  have hperm := indexesFirst_perm (Table.ofList members).toList
  refine distinct_obj_iff.mpr ⟨?_, fun m hm => ?_⟩
  · exact (hperm.map Prod.fst).nodup_iff.mpr (Table.ofList members).nodup
  · exact h m (Table.mem_of_mem_ofList (hperm.mem_iff.mp hm))

def Frame.Distinct : Frame → Prop
  | arr items => ∀ v ∈ items, v.Distinct
  | obj members _ => ∀ m ∈ members, m.2.Distinct

theorem Frame.distinct_arr_nil : (Frame.arr []).Distinct := List.forall_mem_nil _

theorem Frame.Distinct.cons_item (hv : v.Distinct) (h : (Frame.arr items).Distinct) :
    (Frame.arr (v :: items)).Distinct := List.forall_mem_cons.mpr ⟨hv, h⟩

theorem Frame.Distinct.cons_member (hv : v.Distinct) (h : (Frame.obj members name).Distinct) :
    ∀ m ∈ (name, v) :: members, m.2.Distinct := List.forall_mem_cons.mpr ⟨hv, h⟩

def Reader.Distinct : Reader → Prop
  | value stack => ∀ frame ∈ stack, frame.Distinct
  | firstItem stack => ∀ frame ∈ stack, frame.Distinct
  | key members stack => (∀ m ∈ members, m.2.Distinct) ∧ ∀ frame ∈ stack, frame.Distinct
  | colon members _ stack => (∀ m ∈ members, m.2.Distinct) ∧ ∀ frame ∈ stack, frame.Distinct
  | after v stack => v.Distinct ∧ ∀ frame ∈ stack, frame.Distinct

def Token.Distinct (token : Token) : Prop := ∀ v, token = .scalar v → v.Distinct

/-- Only zeros at the end of the mantissa are dropped, and the exponent counts them. -/
theorem exists_number (mantissa exponent : Int) : ∃ kept places h,
    number mantissa exponent = @num kept places h ∧ ∃ dropped : Nat,
      mantissa = kept * 10 ^ dropped ∧ (mantissa ≠ 0 → places = exponent + dropped) := by
  fun_induction number mantissa exponent with
  | case1 exponent hm => exact ⟨0, 0, _, rfl, 0, rfl, fun h => absurd rfl h⟩
  | case2 mantissa exponent hm hz ih =>
    obtain ⟨kept, places, h, hn, dropped, hk, hp⟩ := ih
    refine ⟨kept, places, h, hn, dropped + 1, ?_, fun _ => ?_⟩
    · rw [Int.pow_succ, ← Int.mul_assoc, ← hk]
      omega
    · have hq : mantissa / 10 ≠ 0 := by omega
      rw [hp hq]
      omega
  | case3 mantissa exponent hm => exact ⟨mantissa, exponent, _, rfl, 0, by simp, by simp⟩

theorem distinct_number (mantissa exponent : Int) : (number mantissa exponent).Distinct := by
  obtain ⟨kept, places, h, hn, -⟩ := exists_number mantissa exponent
  rw [hn]
  trivial

theorem Token.distinct_of_scalar? {cs : List Char} (h : scalar? cs = some v) : v.Distinct := by
  unfold scalar? at h
  split at h
  · cases h
    trivial
  · cases h
    trivial
  · cases h
    trivial
  · obtain ⟨⟨mantissa, exponent⟩, -, rfl⟩ := Option.map_eq_some_iff.mp h
    exact distinct_number _ _
  · obtain ⟨⟨mantissa, exponent⟩, -, rfl⟩ := Option.map_eq_some_iff.mp h
    exact distinct_number _ _

theorem Token.distinct_of_punctuation? {c : Char} {token : Token}
    (h : punctuation? c = some token) : token.Distinct := by
  rintro v rfl
  unfold punctuation? at h
  split at h <;> cases h

theorem Token.distinct_of_scan {cs : List Char} {tokens : List Token} (h : scan cs = some tokens) :
    ∀ token ∈ tokens, token.Distinct := by
  fun_induction scan cs generalizing tokens with
  | case1 =>
    cases h
    exact fun token hm => nomatch hm
  | case2 c rest _ ih => exact ih h
  | case3 c rest _ token ht ih =>
    obtain ⟨more, hmore, rfl⟩ := Option.map_eq_some_iff.mp h
    exact List.forall_mem_cons.mpr ⟨distinct_of_punctuation? ht, ih hmore⟩
  | case4 => cases h
  | case5 c rest _ _ _ units after _ ih =>
    obtain ⟨more, hmore, rfl⟩ := Option.map_eq_some_iff.mp h
    exact List.forall_mem_cons.mpr ⟨nofun, ih hmore⟩
  | case6 => cases h
  | case7 c rest _ _ _ value hvalue ih =>
    obtain ⟨more, hmore, rfl⟩ := Option.map_eq_some_iff.mp h
    refine List.forall_mem_cons.mpr ⟨?_, ih hmore⟩
    rintro _ ⟨⟩
    exact distinct_of_scalar? hvalue

namespace Reader

variable {r r' : Reader} {token : Token} {stack : List Frame}

theorem distinct_of_startValue (hs : ∀ frame ∈ stack, frame.Distinct) (ht : token.Distinct)
    (h : startValue stack token = some r) : r.Distinct := by
  unfold startValue at h
  split at h
  · cases h
    exact hs
  · cases h
    exact ⟨nofun, hs⟩
  · cases h
    exact ⟨trivial, hs⟩
  · next v =>
    cases h
    exact ⟨ht v rfl, hs⟩
  · cases h

theorem Distinct.step (hr : r.Distinct) (ht : token.Distinct) (h : r.step token = some r') :
    r'.Distinct := by
  unfold Reader.step at h
  split at h
  · exact distinct_of_startValue hr ht h
  · cases h
    exact ⟨distinct_arr_iff.mpr (List.forall_mem_nil _), hr⟩
  · exact distinct_of_startValue (List.forall_mem_cons.mpr ⟨Frame.distinct_arr_nil, hr⟩) ht h
  · cases h
    exact ⟨distinct_obj_iff.mpr ⟨List.nodup_nil, List.forall_mem_nil _⟩, hr.2⟩
  · cases h
    exact hr
  · cases h
    exact List.forall_mem_cons.mpr hr
  -- a value inside an array goes in front of the items read before
  · cases h
    obtain ⟨hv, hstack⟩ := hr
    obtain ⟨hitems, hrest⟩ := List.forall_mem_cons.mp hstack
    exact List.forall_mem_cons.mpr ⟨hitems.cons_item hv, hrest⟩
  · cases h
    obtain ⟨hv, hstack⟩ := hr
    obtain ⟨hitems, hrest⟩ := List.forall_mem_cons.mp hstack
    refine ⟨distinct_arr_iff.mpr fun w hw => ?_, hrest⟩
    exact hitems.cons_item hv w (List.mem_reverse.mp hw)
  -- a value inside an object goes with its name in front of the members read before
  · cases h
    obtain ⟨hv, hstack⟩ := hr
    obtain ⟨hmembers, hrest⟩ := List.forall_mem_cons.mp hstack
    exact ⟨hmembers.cons_member hv, hrest⟩
  · cases h
    obtain ⟨hv, hstack⟩ := hr
    obtain ⟨hmembers, hrest⟩ := List.forall_mem_cons.mp hstack
    refine ⟨distinct_ofMembers fun m hm => ?_, hrest⟩
    exact hmembers.cons_member hv m (List.mem_reverse.mp hm)
  · cases h

theorem Distinct.run {tokens : List Token} (hr : r.Distinct) (ht : ∀ token ∈ tokens, token.Distinct)
    (h : tokens.foldlM Reader.step r = some r') : r'.Distinct := by
  induction tokens generalizing r with
  | nil =>
    cases h
    exact hr
  | cons token rest ih =>
    rw [List.foldlM_cons] at h
    obtain ⟨next, hnext, hrest⟩ := Option.bind_eq_some_iff.mp h
    obtain ⟨hfirst, hothers⟩ := List.forall_mem_cons.mp ht
    exact ih (hr.step hfirst hnext) hothers hrest

end Reader

/-- A text is read as a value in which no object has a key twice. -/
theorem distinct_of_read? {text : String} (h : read? text = some v) : v.Distinct := by
  simp only [read?, bind, Option.bind_eq_some_iff] at h
  obtain ⟨tokens, htokens, reader, hreader, hv⟩ := h
  have hstart : (Reader.value []).Distinct := List.forall_mem_nil _
  have hr := hstart.run (Token.distinct_of_scan htokens) hreader
  split at hv
  · cases hv
    exact hr.1
  · cases hv

end RefDoc.Json
