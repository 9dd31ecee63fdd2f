namespace RefDoc.Text

/-- Cuts after every newline; there is no empty line at the end. -/
def splitLines : List Char → List (List Char)
  | [] => []
  | c :: cs =>
    if c = '\n' then [c] :: splitLines cs
    else
      match splitLines cs with
      | [] => [[c]]
      | l :: ls => (c :: l) :: ls

def lines (s : String) : List String := (splitLines s.toList).map String.ofList

def firstLine (s : String) : String := String.ofList (s.toList.takeWhile (· != '\n'))

@[simp] theorem flatten_splitLines (cs : List Char) : (splitLines cs).flatten = cs := by
  induction cs with
  | nil => rfl
  | cons c cs ih =>
    rw [splitLines]
    split
    · simp [ih]
    · split <;> simp_all

theorem join_lines (s : String) : String.join (lines s) = s := by
  apply String.toList_inj.mp
  simp [lines, String.toList_join, List.flatMap_map]

end RefDoc.Text
