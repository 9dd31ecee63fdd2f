import RefDoc.Manifest.Decoder
import RefDoc.Site.Basic

namespace RefDoc

structure Manifest where
  version : String
  libraryName : String
  moduleNames : List String
  symbols : Table Symbol
  aliases : Table String
  tree : Table (List String)
  documents : Table Document
  guides : Table (List Guide)
  deriving DecidableEq

namespace Manifest

open Decoder

def location : Decoder Location :=
  object fun m => Location.mk <$> field m "path" text <*> field m "url" (optional text)

def binding : Decoder Binding :=
  object fun m =>
    match Json.member? m "kind" with
    | some (.str "positional") => Binding.positional <$> field m "values" anyList
    | some (.str "keyword") => Binding.keyword <$> field m "values" anyRecord
    | _ => (fail .unknownBinding).under (.key "kind")

def callable : Decoder Callable :=
  object fun m =>
    (fun names varargs? varkw? defaults bindings =>
        ⟨⟨names, varargs?, varkw?, defaults⟩, bindings⟩) <$>
      field m "names" (list text) <*> field m "varargsName" (optional text) <*>
      field m "varkwName" (optional text) <*> field m "defaults" (orElse (list text) []) <*>
      field m "bindings" (orElse (list binding) [])

def kind : Decoder Kind
  | some (.str name) =>
    match Kind.ofName? name with
    | some k => .valid k
    | none => fail (.unknownKind name)
  | value => fail (.kindShape (Shape.of value))

def symbol : Decoder Symbol :=
  object fun m =>
    Symbol.mk <$> field m "kind" kind <*> field m "docstring" (optional text) <*>
      field m "signature" (optional callable) <*> field m "definedIn" (optional location)

def document : Decoder Document :=
  object fun m => Document.mk <$> field m "title" text <*> field m "url" text

def guide : Decoder Guide :=
  object fun m =>
    Guide.mk <$> field m "title" text <*> field m "url" text <*>
      field m "sectionTitle" (optional text) <*> field m "sectionTag" (optional text)

def decode : Decoder Manifest :=
  object fun m =>
    Manifest.mk <$> field m "version" text <*> field m "libraryName" text <*>
      field m "moduleNames" (orElse (list text) []) <*> field m "symbols" (record symbol) <*>
      field m "duplicateOf" (orElse (record text) .empty) <*>
      field m "tree" (orElse (record (list text)) .empty) <*>
      field m "docIndex" (orElse (record document) .empty) <*>
      field m "guideIndex" (orElse (record (list guide)) .empty)

def catalog (m : Manifest) : Catalog where
  symbols := m.symbols
  aliases := m.aliases
  tree := m.tree
  documents := m.documents
  guides := m.guides
  moduleNames := m.moduleNames

end Manifest

end RefDoc
