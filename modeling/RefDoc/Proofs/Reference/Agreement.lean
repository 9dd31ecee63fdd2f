import RefDoc.Proofs.Table
import RefDoc.Reference.Resolver

namespace RefDoc.Resolver

/-- Whether two resolvers agree on all that a link depends on. -/
structure Agree {σ : Type u} {τ : Type v} (r : Resolver σ) (q : Resolver τ) : Prop where
  mem_symbols : ∀ name, name ∈ r.symbols ↔ name ∈ q.symbols
  aliases : r.aliases.Agree Eq q.aliases
  documents : r.documents.Agree Eq q.documents
  moduleNames : r.moduleNames = q.moduleNames
  ownsPage : ∀ name,
    (r.symbols.find? name).any (r.ownsPage name) = (q.symbols.find? name).any (q.ownsPage name)

namespace Agree

variable {σ : Type u} {τ : Type v} {r : Resolver σ} {q : Resolver τ}

theorem canonical_eq (h : r.Agree q) (name : String) : r.canonical name = q.canonical name := by
  rw [canonical, canonical, h.aliases.find?_eq]

theorem url?_eq (h : r.Agree q) (name root : String) : r.url? name root = q.url? name root := by
  simp only [url?, h.canonical_eq, h.ownsPage, h.mem_symbols]

theorem url_eq (h : r.Agree q) (name root : String) : r.url name root = q.url name root := by
  rw [url, url, h.url?_eq]

theorem linkTo_eq (h : r.Agree q) (text name root : String) (asCode : Bool) :
    r.linkTo text name root asCode = q.linkTo text name root asCode := by
  rw [linkTo, linkTo, h.url_eq]

theorem admits_eq (h : r.Agree q) (name : String) : r.admits name = q.admits name := by
  rw [admits, admits, h.moduleNames]

theorem resolveBody_eq (h : r.Agree q) (body root : String) :
    r.resolveBody body root = q.resolveBody body root := by
  simp only [resolveBody]
  cases (Reference.ofBody body).target with
  | document name anchor => simp only [h.documents.find?_eq]
  | symbol name => simp only [h.admits_eq, h.url?_eq]

theorem resolveFragment_eq (h : r.Agree q) (root : String) :
    r.resolveFragment root = q.resolveFragment root := by
  funext fragment
  cases fragment with
  | plain c => rfl
  | token body => exact h.resolveBody_eq _ root

theorem replace_eq (h : r.Agree q) (text root : String) :
    r.replace text root = q.replace text root := by
  rw [replace, replace, h.resolveFragment_eq]

end Agree

end RefDoc.Resolver
