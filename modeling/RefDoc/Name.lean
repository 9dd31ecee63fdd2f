import RefDoc.Text.Split

namespace RefDoc.Name

/-- The name of the parent and the last segment; a name without a dot has no parent. -/
def split? (name : String) : Option (String × String) :=
  (Text.cutLast? '.' name.toList).map fun (parent, last) =>
    (String.ofList parent, String.ofList last)

def parent? (name : String) : Option String := (split? name).map Prod.fst

def depth (name : String) : Nat := name.toList.count '.'

def child (parent short : String) : String :=
  if parent = "" then short else parent ++ "." ++ short

/-- The page of `a.b.C` is `a/b/C.md`. -/
def pagePath (name : String) : String :=
  String.ofList (name.toList.map fun c => if c = '.' then '/' else c) ++ ".md"

def rootPath (name : String) : String :=
  if depth name = 0 then "." else String.intercalate "/" (List.replicate (depth name) "..")

theorem eq_of_split? {name parent last : String} (h : split? name = some (parent, last)) :
    name = parent ++ "." ++ last ∧ '.' ∉ last.toList := by
  obtain ⟨⟨before, after⟩, hc, he⟩ := Option.map_eq_some_iff.mp h
  obtain ⟨rfl, rfl⟩ := Prod.mk.inj he
  obtain ⟨happ, hdot⟩ := Text.append_of_cutLast? hc
  refine ⟨String.toList_inj.mp ?_, ?_⟩
  · simp [happ, String.toList_append]
  · rwa [String.toList_ofList]

end RefDoc.Name
