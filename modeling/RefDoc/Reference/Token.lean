import RefDoc.Text.Split

namespace RefDoc.Reference

inductive Fragment
  | plain (c : Char)
  | token (body : List Char)
  deriving Repr, DecidableEq

namespace Fragment

def source : Fragment → List Char
  | plain c => [c]
  | token body => '@' :: '{' :: (body ++ ['}'])

end Fragment

/-- The body of the token a text starts with, and the text behind the token. -/
def token? : List Char → Option (List Char × List Char)
  | '@' :: '{' :: cs => (Text.cutFirst? '}' cs).filter fun (body, _) => body != []
  | _ => none

theorem eq_of_token? {cs body rest : List Char} (h : token? cs = some (body, rest)) :
    cs = (Fragment.token body).source ++ rest ∧ body ≠ [] ∧ '}' ∉ body := by
  unfold token? at h
  split at h
  · next cs =>
    obtain ⟨hc, hne⟩ := Option.filter_eq_some_iff.mp h
    obtain ⟨rfl, hn⟩ := Text.append_of_cutFirst? hc
    exact ⟨by simp [Fragment.source], by simpa using hne, hn⟩
  · cases h

/-- The pieces of a text, in order. Scanning goes on behind each token. -/
def fragments (cs : List Char) : List Fragment :=
  match cs with
  | [] => []
  | c :: tail =>
    match _h : token? (c :: tail) with
    | some (body, rest) => .token body :: fragments rest
    | none => .plain c :: fragments tail
termination_by cs.length
decreasing_by
  · have := congrArg List.length (eq_of_token? _h).1
    simp only [Fragment.source, List.length_append, List.length_cons, List.length_nil] at this ⊢
    omega
  · simp

theorem flatMap_source_fragments (cs : List Char) :
    (fragments cs).flatMap Fragment.source = cs := by
  fun_induction fragments cs with
  | case1 => rfl
  | case2 c tail body rest h ih => rw [List.flatMap_cons, ih, ← (eq_of_token? h).1]
  | case3 c tail h ih => rw [List.flatMap_cons, ih, Fragment.source, List.singleton_append]

/-- The body of a token that is the whole text, or the text itself. -/
def bodyOf (text : String) : String :=
  match token? text.toList with
  | some (body, []) => String.ofList body
  | _ => text

end RefDoc.Reference
