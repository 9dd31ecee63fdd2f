import RefDoc.Table.Basic

namespace RefDoc

/-- Whether a mantissa ends with no zero; zero itself has no exponent. -/
def Json.Normalized (mantissa exponent : Int) : Prop :=
  mantissa % 10 = 0 → mantissa = 0 ∧ exponent = 0

instance (mantissa exponent : Int) : Decidable (Json.Normalized mantissa exponent) :=
  inferInstanceAs (Decidable (_ → _))

/-- A JSON value. A number is `mantissa * 10 ^ exponent`. -/
inductive Json
  | null
  | bool (value : Bool)
  | num (mantissa exponent : Int) {normalized : Json.Normalized mantissa exponent}
  | str (value : String)
  | arr (items : List Json)
  | obj (members : List (String × Json))
  deriving Repr, Inhabited

namespace Json

mutual

def decEq (a b : Json) : Decidable (a = b) :=
  match a, b with
  | null, null => isTrue rfl
  | bool x, bool y => decidable_of_iff (x = y) (by simp)
  | num m e, num m' e' => decidable_of_iff (m = m' ∧ e = e') (by simp)
  | str x, str y => decidable_of_iff (x = y) (by simp)
  | arr xs, arr ys => @decidable_of_iff _ (xs = ys) (by simp) (decEqItems xs ys)
  | obj xs, obj ys => @decidable_of_iff _ (xs = ys) (by simp) (decEqMembers xs ys)
  | null, bool _ | null, num .. | null, str _ | null, arr _ | null, obj _ => isFalse nofun
  | bool _, null | bool _, num .. | bool _, str _ | bool _, arr _ | bool _, obj _ => isFalse nofun
  | num .., null | num .., bool _ | num .., str _ | num .., arr _ | num .., obj _ => isFalse nofun
  | str _, null | str _, bool _ | str _, num .. | str _, arr _ | str _, obj _ => isFalse nofun
  | arr _, null | arr _, bool _ | arr _, num .. | arr _, str _ | arr _, obj _ => isFalse nofun
  | obj _, null | obj _, bool _ | obj _, num .. | obj _, str _ | obj _, arr _ => isFalse nofun

def decEqItems (xs ys : List Json) : Decidable (xs = ys) :=
  match xs, ys with
  | [], [] => isTrue rfl
  | [], _ :: _ => isFalse nofun
  | _ :: _, [] => isFalse nofun
  | x :: xs, y :: ys =>
    @decidable_of_iff _ (x = y ∧ xs = ys) (by simp)
      (@instDecidableAnd _ _ (decEq x y) (decEqItems xs ys))

def decEqMembers (xs ys : List (String × Json)) : Decidable (xs = ys) :=
  match xs, ys with
  | [], [] => isTrue rfl
  | [], _ :: _ => isFalse nofun
  | _ :: _, [] => isFalse nofun
  | (k, x) :: xs, (l, y) :: ys =>
    @decidable_of_iff _ (k = l ∧ x = y ∧ xs = ys) (by simp [and_assoc])
      (@instDecidableAnd _ _ inferInstance (@instDecidableAnd _ _ (decEq x y) (decEqMembers xs ys)))

end

instance : DecidableEq Json := decEq

def number (mantissa exponent : Int) : Json :=
  if h : mantissa % 10 = 0 then
    if hz : mantissa = 0 then @num 0 0 fun _ => ⟨rfl, rfl⟩
    else number (mantissa / 10) (exponent + 1)
  else @num mantissa exponent fun hm => absurd hm h
termination_by mantissa.natAbs
decreasing_by omega

/-- The number that a key spells, when the key is the plain decimal form of an array index. -/
def arrayIndex? (key : String) : Option Nat :=
  let digits := key.toList
  let value := digits.foldl (fun n c => 10 * n + (c.toNat - '0'.toNat)) 0
  if digits.all Char.isDigit && (key == "0" || digits.head?.any (· != '0')) &&
      value < 0xFFFFFFFF then
    some value
  else none

/-- Array indexes come first, in ascending order; all other keys keep their places. -/
def indexesFirst (members : List (String × Json)) : List (String × Json) :=
  let rank (m : String × Json) : Nat := (arrayIndex? m.1).getD 0
  (members.filter fun m => (arrayIndex? m.1).isSome).mergeSort (fun a b => rank a ≤ rank b) ++
    members.filter fun m => (arrayIndex? m.1).isNone

/-- The object with these members: a repeated key keeps its first place and its last value. -/
def ofMembers (members : List (String × Json)) : Json :=
  obj (indexesFirst (Table.ofList members).toList)

def member? (members : List (String × Json)) (key : String) : Option Json := members.lookup key

def decimal (mantissa exponent : Int) : String :=
  if 0 ≤ exponent then
    toString mantissa ++ String.ofList (List.replicate exponent.toNat '0')
  else
    let places := exponent.natAbs
    let digits := (toString mantissa.natAbs).toList
    let padded := List.replicate (places + 1 - digits.length) '0' ++ digits
    let whole := padded.take (padded.length - places)
    let fraction := padded.drop (padded.length - places)
    (if mantissa < 0 then "-" else "") ++ String.ofList whole ++ "." ++ String.ofList fraction

mutual

/-- The text of a value inside a message: a list has no brackets, and an object no members. -/
def display : Json → String
  | null => "null"
  | bool value => if value then "true" else "false"
  | num mantissa exponent => decimal mantissa exponent
  | str value => value
  | arr items => String.intercalate "," (displayItems items)
  | obj _ => "[object Object]"

def displayItems : List Json → List String
  | [] => []
  | item :: rest =>
    (match item with
      | null => ""
      | _ => display item) :: displayItems rest

end

end Json

end RefDoc
