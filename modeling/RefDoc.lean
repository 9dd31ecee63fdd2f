import RefDoc.Callable
import RefDoc.Docstring.Basic
import RefDoc.Docstring.Line
import RefDoc.Docstring.Machine
import RefDoc.Guide
import RefDoc.Json.Basic
import RefDoc.Json.Printer
import RefDoc.Json.Reader
import RefDoc.Json.Token
import RefDoc.Manifest.Basic
import RefDoc.Manifest.Decoder
import RefDoc.Manifest.Issue
import RefDoc.Manifest.Load
import RefDoc.Name
import RefDoc.Page.Basic
import RefDoc.Page.Build
import RefDoc.Page.Markdown
import RefDoc.Page.Report
import RefDoc.Proofs.Docstring.Block
import RefDoc.Proofs.Docstring.Conservation
import RefDoc.Proofs.Docstring.Invariant
import RefDoc.Proofs.Docstring.Line
import RefDoc.Reference.Basic
import RefDoc.Reference.Resolver
import RefDoc.Reference.Token
import RefDoc.Signature
import RefDoc.Site.Aliases
import RefDoc.Site.Basic
import RefDoc.Site.Batch
import RefDoc.Site.SymbolList
import RefDoc.Symbol
import RefDoc.Table.Basic
import RefDoc.Table.Lemmas
import RefDoc.Text.CharClass
import RefDoc.Text.Lines
import RefDoc.Text.Order
import RefDoc.Text.Split
import RefDoc.Text.Utf16
import RefDoc.Text.Utf8
import RefDoc.Url
import RefDoc.Proofs.Text.Lines
import RefDoc.Proofs.Reference.Token
import RefDoc.Proofs.Reference.Rewriter
import RefDoc.Proofs.Docstring.RewrittenLine
import RefDoc.Proofs.Reference.Replace
import RefDoc.Proofs.Docstring.Rewriting
import RefDoc.Proofs.Path
import RefDoc.Proofs.Reference.Address
import RefDoc.Proofs.Site.Links
import RefDoc.Proofs.Page.Members
import RefDoc.Proofs.Site.Listing
import RefDoc.Proofs.Page.Anchors
import RefDoc.Proofs.Site.Batch
import RefDoc.Proofs.Signature
import RefDoc.Proofs.Reference.Agreement
import RefDoc.Proofs.Site.Aliases
import RefDoc.Proofs.Site.Reordering
import RefDoc.Proofs.Site.Canonical
import RefDoc.Proofs.Site.SymbolList
import RefDoc.Proofs.Json.Distinct
import RefDoc.Proofs.Manifest.Schema
import RefDoc.Proofs.Manifest.Walk
import RefDoc.Proofs.Manifest.Decoder
import RefDoc.Proofs.Manifest.Violation
import RefDoc.Proofs.Manifest.Normal
import RefDoc.Proofs.Manifest.Normalization
import RefDoc.Proofs.Callable
import RefDoc.Proofs.Docstring.Piece
import RefDoc.Proofs.Docstring.Sections
import RefDoc.Proofs.Docstring.Notes
import RefDoc.Proofs.Docstring.Emptied
import RefDoc.Proofs.OverBound
import RefDoc.Proofs.Reference.Grammar
import RefDoc.Proofs.Reference.Scan
import RefDoc.Proofs.Page.Buildable
import RefDoc.Proofs.Site.Growth
import RefDoc.Proofs.Site.AliasMembers
import RefDoc.Proofs.Page.Filing
import RefDoc.Proofs.Packaging
import RefDoc.Proofs.Reference.Failure
import RefDoc.Proofs.Page.MemberOrder
import RefDoc.Proofs.Page.TreeOrder
import RefDoc.Proofs.Docstring.Roles
import RefDoc.Proofs.Page.Rendering
import RefDoc.Proofs.Url
import RefDoc.Proofs.Reference.Document
import RefDoc.Proofs.Site.AliasGroups
import RefDoc.Proofs.Page.Guides
import RefDoc.Proofs.Docstring.Iteration
