import RefDoc.Json.Basic
import RefDoc.Text.Utf16

namespace RefDoc.Json

inductive Token
  | openArr
  | closeArr
  | openObj
  | closeObj
  | comma
  | colon
  | text (value : String)
  | scalar (value : Json)
  deriving Repr, DecidableEq

namespace Token

def isSpace (c : Char) : Bool := c == ' ' || c == '\t' || c == '\n' || c == '\r'

def punctuation? : Char → Option Token
  | '[' => some openArr
  | ']' => some closeArr
  | '{' => some openObj
  | '}' => some closeObj
  | ',' => some comma
  | ':' => some colon
  | _ => none

def escaped? : Char → Option Char
  | '"' => some '"'
  | '\\' => some '\\'
  | '/' => some '/'
  | 'b' => some '\x08'
  | 'f' => some '\x0c'
  | 'n' => some '\n'
  | 'r' => some '\r'
  | 't' => some '\t'
  | _ => none

def hexValue? (c : Char) : Option Nat :=
  if '0' ≤ c ∧ c ≤ '9' then some (c.toNat - '0'.toNat)
  else if 'a' ≤ c ∧ c ≤ 'f' then some (c.toNat - 'a'.toNat + 10)
  else if 'A' ≤ c ∧ c ≤ 'F' then some (c.toNat - 'A'.toNat + 10)
  else none

/-- The code units of a quoted text up to its closing quote, and what follows the quote. -/
def quoted : List Char → Option (List Nat × List Char)
  | [] => none
  | '"' :: cs => some ([], cs)
  | '\\' :: 'u' :: a :: b :: c :: d :: cs => do
    let unit := (← hexValue? a) * 0x1000 + (← hexValue? b) * 0x100 + (← hexValue? c) * 0x10 +
      (← hexValue? d)
    let (units, rest) ← quoted cs
    some (unit :: units, rest)
  | '\\' :: e :: cs => do
    let c ← escaped? e
    let (units, rest) ← quoted cs
    some (c.toNat :: units, rest)
  | c :: cs =>
    if c.toNat < 0x20 then none
    else (quoted cs).map fun (units, rest) => (Text.charUnits c ++ units, rest)

def digits (cs : List Char) : Nat := cs.foldl (fun n c => 10 * n + (c.toNat - '0'.toNat)) 0

def exponent? : List Char → Option Int
  | [] => some 0
  | e :: cs => do
    guard (e == 'e' || e == 'E')
    let (negative, ds) := match cs with
      | '-' :: ds => (true, ds)
      | '+' :: ds => (false, ds)
      | ds => (false, ds)
    guard (ds != [] && ds.all Char.isDigit)
    some (if negative then -(digits ds : Int) else digits ds)

/-- A number without its sign: no zero in front of other digits, digits on both sides of a point. -/
def unsigned? (cs : List Char) : Option (Nat × Int) := do
  let whole := cs.takeWhile Char.isDigit
  guard (whole != [] && (whole.head? != some '0' || whole.length == 1))
  let (fraction, rest) ← match cs.dropWhile Char.isDigit with
    | '.' :: rest =>
      let fraction := rest.takeWhile Char.isDigit
      if fraction.isEmpty then none else some (fraction, rest.dropWhile Char.isDigit)
    | rest => some ([], rest)
  let exponent ← exponent? rest
  some (digits (whole ++ fraction), exponent - fraction.length)

def scalar? : List Char → Option Json
  | ['n', 'u', 'l', 'l'] => some .null
  | ['t', 'r', 'u', 'e'] => some (.bool true)
  | ['f', 'a', 'l', 's', 'e'] => some (.bool false)
  | '-' :: cs => (unsigned? cs).map fun (mantissa, exponent) => number (-(mantissa : Int)) exponent
  | cs => (unsigned? cs).map fun (mantissa, exponent) => number mantissa exponent

def isScalarChar (c : Char) : Bool := c.isAlphanum || c == '+' || c == '-' || c == '.'

theorem length_of_quoted {cs rest : List Char} {units : List Nat}
    (h : quoted cs = some (units, rest)) : rest.length < cs.length := by
  fun_induction quoted cs generalizing units rest with
  | case1 => cases h
  | case2 cs =>
    cases h
    simp
  | case3 a b c d cs ih =>
    simp only [bind, Option.bind_eq_some_iff] at h
    obtain ⟨_, _, _, _, _, _, _, _, ⟨us, r⟩, hr, he⟩ := h
    cases he
    have := ih hr
    simp only [List.length_cons]
    omega
  | case4 e cs _ ih =>
    simp only [bind, Option.bind_eq_some_iff] at h
    obtain ⟨_, _, ⟨us, r⟩, hr, he⟩ := h
    cases he
    have := ih hr
    simp only [List.length_cons]
    omega
  | case5 => cases h
  | case6 c cs _ _ _ _ ih =>
    obtain ⟨⟨us, r⟩, hr, he⟩ := Option.map_eq_some_iff.mp h
    cases he
    have := ih hr
    simp only [List.length_cons]
    omega

theorem length_dropWhile_le (p : Char → Bool) (cs : List Char) :
    (cs.dropWhile p).length ≤ cs.length :=
  (List.dropWhile_sublist p).length_le

def scan (cs : List Char) : Option (List Token) :=
  match cs with
  | [] => some []
  | c :: rest =>
    if isSpace c then scan rest
    else
      match punctuation? c with
      | some token => (scan rest).map (token :: ·)
      | none =>
        if c == '"' then
          match _h : quoted rest with
          | none => none
          | some (units, after) => (scan after).map (text (String.ofList (Text.ofUnits units)) :: ·)
        else
          match scalar? (c :: rest.takeWhile isScalarChar) with
          | none => none
          | some value => (scan (rest.dropWhile isScalarChar)).map (scalar value :: ·)
termination_by cs.length
decreasing_by
  · simp
  · simp
  · have := length_of_quoted _h
    simp only [List.length_cons]
    omega
  · have := length_dropWhile_le isScalarChar rest
    simp only [List.length_cons]
    omega

end Token

end RefDoc.Json
