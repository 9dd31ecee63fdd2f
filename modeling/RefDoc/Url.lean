import RefDoc.Text.Split

namespace RefDoc.Url

/-- A target seen from a root; a target below the empty root stands alone. -/
def join (root target : String) : String :=
  if root = "" then target
  else if root.toList.getLast? = some '/' then root ++ target
  else root ++ "/" ++ target

def segments (path : String) : List String := (Text.splitAt '/' path.toList).map String.ofList

/-- A step up above the start is kept, and above the root of an absolute path it is dropped. -/
def visit (absolute : Bool) (kept : List String) (segment : String) : List String :=
  if segment = "" ∨ segment = "." then kept
  else if segment = ".." then
    match kept with
    | [] => if absolute then [] else [".."]
    | top :: rest => if top = ".." then ".." :: kept else rest
  else segment :: kept

def resolve (absolute : Bool) (parts : List String) : List String :=
  (parts.foldl (visit absolute) []).reverse

/-- The normal form of a path. It keeps the slash at the end; nothing left is written as a dot. -/
def normalize (path : String) : String :=
  let absolute : Bool := path.toList.head? = some '/'
  let trailing : Bool := path.toList.getLast? = some '/'
  match resolve absolute (segments path) with
  | [] => if absolute then "/" else if trailing then "./" else "."
  | kept =>
    (if absolute then "/" else "") ++ String.intercalate "/" kept ++ (if trailing then "/" else "")

/-- Documents are addressed from the document root, two directories above the pages. -/
def documentRoot : String := "../.."

def document (root url : String) : String := normalize (join (join root documentRoot) url)

end RefDoc.Url
