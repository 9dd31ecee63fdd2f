import RefDoc.Json.Printer
import RefDoc.Symbol

namespace RefDoc.Manifest

inductive Step
  | key (name : String)
  | index (i : Nat)
  deriving Repr, DecidableEq

def Step.toJson : Step → Json
  | key name => .str name
  | index i => .number i 0

inductive Shape
  | missing
  | null
  | string
  | number
  | boolean
  | array
  | object
  deriving Repr, DecidableEq

def Shape.name : Shape → String
  | missing => "undefined"
  | null => "null"
  | string => "string"
  | number => "number"
  | boolean => "boolean"
  | array => "array"
  | object => "object"

def Shape.of : Option Json → Shape
  | none => missing
  | some .null => null
  | some (.bool _) => boolean
  | some (.num _ _) => number
  | some (.str _) => string
  | some (.arr _) => array
  | some (.obj _) => object

inductive Problem
  | wrongShape (expected received : Shape)
  | kindShape (received : Shape)
  | unknownKind (received : String)
  | unknownBinding
  deriving Repr, DecidableEq

structure Issue where
  path : List Step
  problem : Problem
  deriving Repr, DecidableEq

def Issue.under (step : Step) (issue : Issue) : Issue := { issue with path := step :: issue.path }

def alternatives (names : List String) : String :=
  String.intercalate " | " (names.map fun name => "'" ++ name ++ "'")

def kindNames : List String := Kind.all.map Kind.name

def bindingNames : List String := ["positional", "keyword"]

def shapeMessage (expected : String) (received : Shape) : String :=
  if received = .missing then "Required"
  else "Expected " ++ expected ++ ", received " ++ received.name

def Problem.message : Problem → String
  | wrongShape expected received => shapeMessage expected.name received
  | kindShape received => shapeMessage (alternatives kindNames) received
  | unknownKind received =>
    "Invalid enum value. Expected " ++ alternatives kindNames ++ ", received '" ++ received ++ "'"
  | unknownBinding => "Invalid discriminator value. Expected " ++ alternatives bindingNames

def Issue.toJson (issue : Issue) : Json :=
  let path := ("path", Json.arr (issue.path.map Step.toJson))
  let message := ("message", Json.str issue.problem.message)
  let names (list : List String) : Json := .arr (list.map Json.str)
  match issue.problem with
  | .wrongShape expected received =>
    .obj [("code", .str "invalid_type"), ("expected", .str expected.name),
      ("received", .str received.name), path, message]
  | .kindShape received =>
    .obj [("expected", .str (alternatives kindNames)), ("received", .str received.name),
      ("code", .str "invalid_type"), path, message]
  | .unknownKind received =>
    .obj [("received", .str received), ("code", .str "invalid_enum_value"),
      ("options", names kindNames), path, message]
  | .unknownBinding =>
    .obj [("code", .str "invalid_union_discriminator"), ("options", names bindingNames), path,
      message]

def report (issues : List Issue) : String := Json.pretty "" (.arr (issues.map Issue.toJson))

end RefDoc.Manifest
