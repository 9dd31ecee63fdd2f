import RefDoc.Json.Token

namespace RefDoc.Json

inductive Frame
  | arr (items : List Json)
  | obj (members : List (String × Json)) (name : String)

/-- What has been read, named for what may come next. -/
inductive Reader
  | value (stack : List Frame)
  | firstItem (stack : List Frame)
  /-- A key must come, or the end of an object without members. -/
  | key (members : List (String × Json)) (stack : List Frame)
  | colon (members : List (String × Json)) (name : String) (stack : List Frame)
  | after (v : Json) (stack : List Frame)

namespace Reader

def startValue (stack : List Frame) : Token → Option Reader
  | .openArr => some (.firstItem stack)
  | .openObj => some (.key [] stack)
  | .text s => some (.after (.str s) stack)
  | .scalar v => some (.after v stack)
  | _ => none

def step : Reader → Token → Option Reader
  | .value stack, token => startValue stack token
  | .firstItem stack, .closeArr => some (.after (.arr []) stack)
  | .firstItem stack, token => startValue (.arr [] :: stack) token
  | .key [] stack, .closeObj => some (.after (.obj []) stack)
  | .key members stack, .text s => some (.colon members s stack)
  | .colon members name stack, .colon => some (.value (.obj members name :: stack))
  | .after v (.arr items :: stack), .comma => some (.value (.arr (v :: items) :: stack))
  | .after v (.arr items :: stack), .closeArr => some (.after (.arr (v :: items).reverse) stack)
  | .after v (.obj members name :: stack), .comma => some (.key ((name, v) :: members) stack)
  | .after v (.obj members name :: stack), .closeObj =>
    some (.after (ofMembers ((name, v) :: members).reverse) stack)
  | _, _ => none

end Reader

def read? (s : String) : Option Json := do
  let tokens ← Token.scan s.toList
  match ← tokens.foldlM Reader.step (.value []) with
  | .after value [] => some value
  | _ => none

end RefDoc.Json
