import RefDoc.Json.Basic

namespace RefDoc.Json

def quoteChar (c : Char) : String :=
  if c == '"' then "\\\""
  else if c == '\\' then "\\\\"
  else if c == '\x08' then "\\b"
  else if c == '\t' then "\\t"
  else if c == '\n' then "\\n"
  else if c == '\x0c' then "\\f"
  else if c == '\r' then "\\r"
  else if c.toNat < 0x20 then
    "\\u00" ++ String.ofList [Nat.digitChar (c.toNat / 16), Nat.digitChar (c.toNat % 16)]
  else String.ofList [c]

def quote (s : String) : String := "\"" ++ String.join (s.toList.map quoteChar) ++ "\""

mutual

/-- The text of a value whose lines after the first start with `indent`. -/
def pretty (indent : String) : Json → String
  | null => "null"
  | bool value => if value then "true" else "false"
  | num mantissa exponent => decimal mantissa exponent
  | str value => quote value
  | arr [] => "[]"
  | arr items =>
    "[\n" ++ String.intercalate ",\n" (prettyItems (indent ++ "  ") items) ++ "\n" ++ indent ++ "]"
  | obj [] => "\x7b\x7d"
  | obj members =>
    "\x7b\n" ++ String.intercalate ",\n" (prettyMembers (indent ++ "  ") members) ++ "\n" ++
      indent ++ "\x7d"

def prettyItems (indent : String) : List Json → List String
  | [] => []
  | item :: rest => (indent ++ pretty indent item) :: prettyItems indent rest

def prettyMembers (indent : String) : List (String × Json) → List String
  | [] => []
  | (key, value) :: rest =>
    (indent ++ quote key ++ ": " ++ pretty indent value) :: prettyMembers indent rest

end

end RefDoc.Json
