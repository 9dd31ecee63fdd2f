import RefDoc.Text.CharClass

namespace RefDoc.Docstring.Line

def behind? : List Char → List Char → Option (List Char)
  | [], cs => some cs
  | _ :: _, [] => none
  | m :: ms, c :: cs => if m = c then behind? ms cs else none

def isBlank (line : String) : Bool := line.toList.all Text.isBlank

def indent (line : String) : String := String.ofList (line.toList.takeWhile Text.isIndent)

/-- The word of a header line: a capitalised word and a colon, alone on a line that ends. -/
def header? (line : String) : Option String :=
  let word := line.toList.takeWhile Text.isWord
  if word.head?.any Char.isUpper ∧ line.toList.dropWhile Text.isWord = [':', '\n'] then
    some (String.ofList word)
  else none

def accepts (keywords : Option (List String)) (word : String) : Bool :=
  match keywords with
  | none => true
  | some words => word ∈ words

def keyword? (keywords : Option (List String)) (line : String) : Option String :=
  (header? line).filter (accepts keywords)

def blockTarget? (line : String) : Option String := do
  let cs ← behind? "@compatibility(".toList (line.toList.dropWhile Text.isIndent)
  let word := cs.takeWhile Text.isWord
  let rest ← behind? [')'] (cs.dropWhile Text.isWord)
  let rest := rest.dropWhile Text.isIndent
  if word ≠ [] ∧ (rest = [] ∨ rest = ['\n']) then some (String.ofList word) else none

def afterBlock? (line : String) : Option String :=
  (behind? "@end_compatibility".toList (line.toList.dropWhile Text.isBlank)).map String.ofList

def closesBlock (line : String) : Bool := (afterBlock? line).isSome

/-- The name and the description of an item line. The name may be marked with one or two stars. -/
def item? (indent line : String) : Option (String × String) := do
  let cs ← behind? indent.toList line.toList
  let stars := (cs.take 2).takeWhile (· == '*')
  let word := (cs.drop stars.length).takeWhile Text.isWord
  let rest ← behind? [':'] ((cs.drop stars.length).dropWhile Text.isWord)
  if word ≠ [] then some (String.ofList (stars ++ word), String.ofList rest) else none

theorem behind?_eq_some_iff {mark cs rest : List Char} :
    behind? mark cs = some rest ↔ cs = mark ++ rest := by
  induction mark generalizing cs with
  | nil => simp [behind?]
  | cons m ms ih =>
    cases cs with
    | nil => simp [behind?]
    | cons c cs =>
      rw [behind?]
      split
      · next h => simp [h, ih]
      · next h => simp [Ne.symm h]

end RefDoc.Docstring.Line
