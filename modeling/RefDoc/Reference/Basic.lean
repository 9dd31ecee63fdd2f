import RefDoc.Text.Split

namespace RefDoc

inductive Target
  | symbol (name : String)
  /-- The anchor is empty or starts with a number sign. -/
  | document (name anchor : String)
  deriving Repr, DecidableEq

structure Reference where
  target : Target
  text? : Option String
  deriving Repr, DecidableEq

namespace Target

/-- A dollar sign in first place marks a document, and the first number sign starts its anchor. -/
def ofText (text : String) : Target :=
  match text.toList with
  | '$' :: cs =>
    match Text.cutFirst? '#' cs with
    | some (name, anchor) => document (String.ofList name) ("#" ++ String.ofList anchor)
    | none => document (String.ofList cs) ""
  | _ => symbol text

def source : Target → String
  | symbol name => name
  | document name anchor => "$" ++ name ++ anchor

end Target

namespace Reference

/-- The text of the link stands behind the last dollar sign, unless that stands in first place. -/
def ofBody (body : String) : Reference :=
  match Text.cutLast? '$' body.toList with
  | none => ⟨Target.ofText body, none⟩
  | some (target, text) =>
    if target = [] then ⟨Target.ofText body, none⟩
    else ⟨Target.ofText (String.ofList target), some (String.ofList text)⟩

inductive Cause
  | noSymbolOrParent
  | unknownDocument (name : String)
  | outsideModules (name : String)
  | unknownSymbol (name : String)
  deriving Repr, DecidableEq

structure Unresolved where
  reference : String
  cause : Cause
  deriving Repr, DecidableEq

def Cause.message : Cause → String
  | noSymbolOrParent => "no such symbol, and its parent is not indexed"
  | unknownDocument name => "document \"" ++ name ++ "\" is not in the document index"
  | outsideModules name => "\"" ++ name ++ "\" is outside the documented modules"
  | unknownSymbol name => "\"" ++ name ++ "\" is not in the symbol index"

def Unresolved.message (e : Unresolved) : String :=
  "Unresolved reference \"@\x7b" ++ e.reference ++ "\x7d\": " ++ e.cause.message

end Reference

end RefDoc
