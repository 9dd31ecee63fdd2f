import Mathlib.Data.List.Forall2
import RefDoc.Manifest.Decoder

namespace RefDoc.Manifest

namespace Checked

variable {α β : Type u} {x : Checked α} {b : β}

theorem map_eq_valid_iff {f : α → β} : f <$> x = .valid b ↔ ∃ a, x = .valid a ∧ f a = b := by
  cases x with
  | valid a =>
    change valid (f a) = valid b ↔ _
    simp
  | invalid issues =>
    change invalid issues = valid b ↔ _
    simp

theorem ap_eq_valid_iff {f : Checked (α → β)} :
    f <*> x = .valid b ↔ ∃ g a, f = .valid g ∧ x = .valid a ∧ g a = b := by
  change ap f x = valid b ↔ _
  cases f <;> cases x <;> simp [ap]

theorem under_eq_valid_iff {step : Step} {a : α} : x.under step = .valid a ↔ x = .valid a := by
  cases x <;> simp [under]

end Checked

namespace Decoder

variable {α : Type} {decoder : Decoder α}

theorem field_eq_valid_iff {members : List (String × Json)} {name : String} {a : α} :
    field members name decoder = .valid a ↔ decoder (Json.member? members name) = .valid a :=
  Checked.under_eq_valid_iff

theorem itemsFrom_eq_valid_iff {i : Nat} {items : List Json} {decoded : List α} :
    itemsFrom decoder i items = .valid decoded ↔
      List.Forall₂ (fun v a => decoder (some v) = .valid a) items decoded := by
  induction items generalizing i decoded with
  | nil => simp [itemsFrom, eq_comm]
  | cons v rest ih =>
    rw [itemsFrom, Checked.ap_eq_valid_iff]
    constructor
    · rintro ⟨_, more, hfirst, hmore, rfl⟩
      obtain ⟨a, ha, rfl⟩ := Checked.map_eq_valid_iff.mp hfirst
      exact .cons (Checked.under_eq_valid_iff.mp ha) (ih.mp hmore)
    · rintro (_ | ⟨ha, hmore⟩)
      have hfirst : (decoder (some v)).under (.index i) = .valid _ :=
        Checked.under_eq_valid_iff.mpr ha
      exact ⟨_, _, Checked.map_eq_valid_iff.mpr ⟨_, hfirst, rfl⟩, ih.mpr hmore, rfl⟩

theorem entries_eq_valid_iff {members : List (String × Json)} {decoded : List (String × α)} :
    entries decoder members = .valid decoded ↔
      List.Forall₂ (fun m e => m.1 = e.1 ∧ decoder (some m.2) = .valid e.2) members decoded := by
  induction members generalizing decoded with
  | nil => simp [entries, eq_comm]
  | cons m rest ih =>
    rw [entries, Checked.ap_eq_valid_iff]
    constructor
    · rintro ⟨_, more, hfirst, hmore, rfl⟩
      obtain ⟨a, ha, rfl⟩ := Checked.map_eq_valid_iff.mp hfirst
      exact .cons ⟨rfl, Checked.under_eq_valid_iff.mp ha⟩ (ih.mp hmore)
    · rintro (_ | ⟨⟨hkey, ha⟩, hmore⟩)
      have hfirst : (decoder (some m.2)).under (.key m.1) = .valid _ :=
        Checked.under_eq_valid_iff.mpr ha
      refine ⟨_, _, Checked.map_eq_valid_iff.mpr ⟨_, hfirst, rfl⟩, ih.mpr hmore, ?_⟩
      rw [hkey]

def any : Decoder Json := fun value => .valid (value.getD .null)

theorem anyList_eq : anyList = list any := by
  funext value
  rcases value with _ | _ | _ | _ | _ | items | _
  case some.arr =>
    refine (itemsFrom_eq_valid_iff.mpr ?_).symm
    exact List.forall₂_same.mpr fun v _ => rfl
  all_goals rfl

theorem anyRecord_eq : anyRecord = record any := by
  funext value
  rcases value with _ | _ | _ | _ | _ | _ | members
  case some.obj =>
    have hentries : entries any members = .valid members :=
      entries_eq_valid_iff.mpr (List.forall₂_same.mpr fun m _ => ⟨rfl, rfl⟩)
    rw [record, hentries]
    rfl
  all_goals rfl

end Decoder

end RefDoc.Manifest
