import Mathlib.Data.List.Induction
import PerfectMatching.History

/-!
# The last call that was heard

If a call that is refused for the size of its matrix leaves a matcher as it was, then what a matcher holds after some calls is what
the last call that was heard has left (`afterCalls_eq`). This holds of either method and so is said of any way of answering calls.
-/

namespace PerfectMatching

variable {α M : Type} (solve : M → Goal → Weights α → Solved α M)

/-- The returns of one more call. -/
theorem returnsOf_concat (m : M) (calls : List (Call α)) (call : Call α) :
    returnsOf solve m (calls ++ [call]) = returnsOf solve m calls ++
      [(call, (solve (calls.foldl (fun m call => (solve m call.1 call.2).matcher) m) call.1 call.2).outcome)] := by
  induction calls generalizing m with
  | nil => rfl
  | cons first calls ih => exact congrArg (List.cons _) (ih _)

/-- The last call that was heard after one more call: that one, unless it is refused for the size of its matrix. -/
theorem getLast?_heard_concat (m : M) (calls : List (Call α)) (call : Call α) :
    ((returnsOf solve m (calls ++ [call])).filter fun r => !isMismatch r.2).getLast? =
      let r := solve (calls.foldl (fun m call => (solve m call.1 call.2).matcher) m) call.1 call.2
      if isMismatch r.outcome then ((returnsOf solve m calls).filter fun r => !isMismatch r.2).getLast? else some (call, r.outcome) := by
  rw [returnsOf_concat, List.filter_append]
  simp only
  split
  · rename_i h
    simp [h]
  · rename_i h
    simp [h]

/-- A matcher is as it was in the beginning if no call was heard, and else what the last call that was heard has left. -/
theorem afterCalls_eq (hkeep : ∀ m goal w, isMismatch (solve m goal w).outcome = true → (solve m goal w).matcher = m) (m : M)
    (calls : List (Call α)) :
    let last := ((returnsOf solve m calls).filter fun r => !isMismatch r.2).getLast?
    let left := calls.foldl (fun m call => (solve m call.1 call.2).matcher) m
    (last = none ∧ left = m) ∨ ∃ m' goal w, last = some ((goal, w), (solve m' goal w).outcome) ∧
      isMismatch (solve m' goal w).outcome = false ∧ left = (solve m' goal w).matcher := by
  intro last left
  induction calls using List.reverseRecOn with
  | nil => exact Or.inl ⟨rfl, rfl⟩
  | append_singleton calls call ih =>
    simp only [last, left, getLast?_heard_concat, List.foldl_append, List.foldl_cons, List.foldl_nil] at ih ⊢
    generalize calls.foldl (fun m call => (solve m call.1 call.2).matcher) m = left at ih ⊢
    cases h : isMismatch (solve left call.1 call.2).outcome with
    | true =>
      rw [hkeep _ _ _ h, if_pos rfl]
      exact ih
    | false => exact Or.inr ⟨left, call.1, call.2, rfl, h, rfl⟩

end PerfectMatching
