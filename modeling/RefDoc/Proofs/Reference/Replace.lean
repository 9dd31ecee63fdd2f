import RefDoc.Proofs.Reference.Rewriter
import RefDoc.Proofs.Steps
import RefDoc.Reference.Resolver

namespace RefDoc

open Reference

namespace Resolver

variable {σ : Type u} (r : Resolver σ) {root text resolved body : String}

theorem replace_eq_ok_iff : r.replace text root = .ok resolved ↔
    ∃ pieces, List.Forall₂ (fun fragment piece => r.resolveFragment root fragment = .ok piece)
      (fragments text.toList) pieces ∧ String.join pieces = resolved := by
  simp only [← mapM_eq_ok_iff]
  rw [replace, bind_eq_ok_iff]
  simp [pure, Except.pure]

theorem exists_replace_iff : (∃ replaced, r.replace text root = .ok replaced) ↔
    ∀ body, .token body ∈ fragments text.toList →
      ∃ linked, r.resolveBody (String.ofList body) root = .ok linked := by
  simp only [replace_eq_ok_iff, ← mapM_eq_ok_iff]
  rw [exists_comm]
  simp only [exists_and_left, exists_eq', and_true, exists_mapM_iff]
  constructor
  · intro hf body hm
    exact hf _ hm
  · intro hb fragment hm
    cases fragment with
    | plain c => exact ⟨_, rfl⟩
    | token body => exact hb body hm

theorem exists_of_resolveBody {linked : String} (h : r.resolveBody body root = .ok linked) :
    ∃ tail, linked.toList = '[' :: tail := by
  have hl (text url : String) : ∃ tail, (link text url).toList = '[' :: tail :=
    ⟨(text ++ "](" ++ url ++ ")").toList, by simp [link]⟩
  rw [resolveBody] at h
  split at h
  · split at h
    · cases h
    · cases h
      exact hl _ _
  · split at h
    · split at h
      · cases h
      · cases h
        exact hl _ _
    · cases h

/-- The links of the references that resolve on one line; nothing else is put in. -/
def rewriter (root : String) : Rewriter where
  link body :=
    match r.resolveBody (String.ofList body) root with
    | .ok linked => if '\n' ∈ linked.toList then ['['] else linked.toList
    | .error _ => ['[']
  shape body := by
    split
    · next linked h =>
      obtain ⟨tail, hl⟩ := r.exists_of_resolveBody h
      split
      · exact ⟨[], rfl, List.not_mem_nil⟩
      · next hn => exact ⟨tail, hl, fun hm => hn (hl ▸ List.mem_cons_of_mem _ hm)⟩
    · exact ⟨[], rfl, List.not_mem_nil⟩

def Resolves (root : String) (body : List Char) : Prop :=
  '\n' ∉ body ∧
    ∃ linked, r.resolveBody (String.ofList body) root = .ok linked ∧ '\n' ∉ linked.toList

variable {r}

theorem Resolves.resolveFragment {body : List Char} (h : r.Resolves root body) :
    r.resolveFragment root (.token body) = .ok (String.ofList ((r.rewriter root).link body)) := by
  obtain ⟨-, linked, hr, hn⟩ := h
  simp only [Resolver.resolveFragment, rewriter, hr, hn, if_false, String.ofList_toList]

theorem replace_of_resolves
    (h : ∀ body, .token body ∈ fragments text.toList → r.Resolves root body) :
    r.replace text root = .ok ((r.rewriter root).text text) := by
  refine r.replace_eq_ok_iff.mpr
    ⟨(fragments text.toList).map fun f => String.ofList ((r.rewriter root).piece f), ?_, ?_⟩
  · rw [List.forall₂_map_right_iff, List.forall₂_same]
    intro fragment hm
    cases fragment with
    | plain c => rfl
    | token body => exact (h body hm).resolveFragment
  · apply String.toList_inj.mp
    simp [Rewriter.toList_text, Rewriter.rewrite, String.toList_join, List.flatMap_map]

theorem resolves_of_replace (h : r.replace text root = .ok resolved)
    (hbody : ∀ body, .token body ∈ fragments text.toList → '\n' ∉ body)
    (hlink : ∀ body linked, .token body ∈ fragments text.toList →
      r.resolveBody (String.ofList body) root = .ok linked → '\n' ∉ linked.toList) :
    ∀ body, .token body ∈ fragments text.toList → r.Resolves root body := by
  intro body hm
  obtain ⟨pieces, hf, -⟩ := r.replace_eq_ok_iff.mp h
  obtain ⟨linked, -, hl⟩ := exists_right_of_forall₂ hf hm
  exact ⟨hbody body hm, linked, hl, hlink body linked hm hl⟩

end Resolver

end RefDoc
