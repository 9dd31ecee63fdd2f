import RefDoc.Json.Reader
import RefDoc.Manifest.Basic
import RefDoc.Text.Utf8

namespace RefDoc

inductive ManifestError
  | notFound (path : String)
  | invalidJson (path : String)
  | invalid (issues : List Manifest.Issue) (path? : Option String)
  deriving Repr, DecidableEq

namespace ManifestError

def message : ManifestError → String
  | notFound path => "Manifest file not found at " ++ path
  | invalidJson path => "Invalid JSON in " ++ path
  | invalid issues path? =>
    let place := match path? with
      | none => ""
      | some path => if path = "" then "" else " for " ++ path
    "Schema validation failed" ++ place ++ ": " ++ Manifest.report issues

def path? : ManifestError → Option String
  | notFound path => some path
  | invalidJson path => some path
  | invalid _ path? => path?

end ManifestError

inductive FileContent
  | missing
  | directory
  | bytes (bytes : List UInt8)
  deriving Repr, DecidableEq

inductive LoadError
  | manifest (e : ManifestError)
  | isDirectory
  deriving Repr, DecidableEq

def LoadError.message : LoadError → String
  | manifest e => e.message
  | isDirectory => "EISDIR: illegal operation on a directory, read"

namespace Manifest

/-- The manifest of a value; `path?` only names the place of the value in an error. -/
def ofJson (value : Json) (path? : Option String) : Except ManifestError Manifest :=
  match decode (some value) with
  | .valid m => .ok m
  | .invalid issues => .error (.invalid issues path?)

def ofText (text path : String) : Except ManifestError Manifest :=
  match Json.read? text with
  | none => .error (.invalidJson path)
  | some value => ofJson value (some path)

def load (path : String) : FileContent → Except LoadError Manifest
  | .missing => .error (.manifest (.notFound path))
  | .directory => .error .isDirectory
  | .bytes bytes => (ofText (Text.Utf8.decode bytes) path).mapError LoadError.manifest

end Manifest

end RefDoc
