namespace RefDoc.Text.Utf8

def replacement : Char := '\uFFFD'

/-- A character whose first bytes have been read. -/
structure Pending where
  bits : Nat
  owed : Nat
  /-- The least and the greatest value the next byte may have. -/
  low : Nat
  high : Nat
  deriving Repr, DecidableEq

inductive Start
  | char (c : Char)
  | pending (p : Pending)
  | invalid
  deriving Repr, DecidableEq

/-- The bounds on the second byte shut out overlong forms, surrogates and high values. -/
def start (b : Nat) : Start :=
  if b ≤ 0x7F then .char (Char.ofNat b)
  else if 0xC2 ≤ b && b ≤ 0xDF then .pending ⟨b - 0xC0, 0, 0x80, 0xBF⟩
  else if b == 0xE0 then .pending ⟨0, 1, 0xA0, 0xBF⟩
  else if b == 0xED then .pending ⟨0xD, 1, 0x80, 0x9F⟩
  else if 0xE1 ≤ b && b ≤ 0xEF then .pending ⟨b - 0xE0, 1, 0x80, 0xBF⟩
  else if b == 0xF0 then .pending ⟨0, 2, 0x90, 0xBF⟩
  else if 0xF1 ≤ b && b ≤ 0xF3 then .pending ⟨b - 0xF0, 2, 0x80, 0xBF⟩
  else if b == 0xF4 then .pending ⟨4, 2, 0x80, 0x8F⟩
  else .invalid

/-- The characters of the bytes that follow `pending`. -/
def decodeFrom : Option Pending → List UInt8 → List Char
  | none, [] => []
  | some _, [] => [replacement]
  | none, b :: bs =>
    match start b.toNat with
    | .char c => c :: decodeFrom none bs
    | .pending p => decodeFrom (some p) bs
    | .invalid => replacement :: decodeFrom none bs
  | some p, b :: bs =>
    if p.low ≤ b.toNat ∧ b.toNat ≤ p.high then
      let bits := p.bits * 64 + (b.toNat - 0x80)
      match p.owed with
      | 0 => Char.ofNat bits :: decodeFrom none bs
      | owed + 1 => decodeFrom (some ⟨bits, owed, 0x80, 0xBF⟩) bs
    else
      match start b.toNat with
      | .char c => replacement :: c :: decodeFrom none bs
      | .pending q => replacement :: decodeFrom (some q) bs
      | .invalid => replacement :: replacement :: decodeFrom none bs

def decode (bytes : List UInt8) : String := String.ofList (decodeFrom none bytes)

end RefDoc.Text.Utf8
