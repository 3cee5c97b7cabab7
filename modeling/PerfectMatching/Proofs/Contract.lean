import PerfectMatching.Proofs.Duality
import PerfectMatching.Proofs.Enumeration

/-!
# What is readable after any calls

A call that is heard leaves a permutation along allowed edges if it succeeds, and nothing if it fails (`Solver.leaves_solve`). A call that
is refused for the size of its matrix is not heard: it leaves what was there, also the matching of an earlier call
(`Solver.assignment_kept`). So what is readable after any calls depends on the last one that was heard (`Solver.assignment_after`).
-/

namespace PerfectMatching

variable {α : Type} [Scalar α] {n : ℕ} {goal : Goal} {w : Weights α}

/-- What a call that was heard leaves as its result: after a success a permutation and its inverse on allowed edges, after a failure
nothing. -/
inductive Leaves (w : Weights α) (n : ℕ) : Except (Failure α) Unit → Assignment α → Prop where
  | ok {a : Assignment α} : PrimalDual.IsPermutation w n a → Leaves w n (.ok ()) a
  | error (e : Failure α) : Leaves w n (.error e) .empty

/-- Without rows the empty result is a permutation. -/
theorem PrimalDual.isPermutation_empty (w : Weights α) : PrimalDual.IsPermutation w 0 .empty where
  source_perm := List.Perm.refl []
  dest_perm := List.Perm.refl []
  inverse := by simp [Assignment.empty]
  allowed := by simp [Assignment.empty]

namespace Enumeration

/-- What is kept of some permutations is one of them, with its total. -/
theorem mem_of_foldl_best (l : List (List ℕ)) {columns : List ℕ} {total : α}
    (h : (l.foldl (Tally.add goal w) ⟨none, 0⟩).best = some (columns, total)) :
    columns ∈ l ∧ w.total? columns = some (some total) := by
  induction l using List.reverseRecOn with
  | nil => exact nomatch h
  | append_singleton l other ih =>
    rw [List.foldl_append, List.foldl_cons, List.foldl_nil] at h
    generalize l.foldl (Tally.add goal w) ⟨none, 0⟩ = tally at h ih
    have hkept : tally.best = some (columns, total) → columns ∈ l ++ [other] ∧ w.total? columns = some (some total) :=
      fun hbest => ⟨List.mem_append_left _ (ih hbest).1, (ih hbest).2⟩
    have hreplaced : ∀ x, (w.total? other).join = some x → (other, x) = (columns, total) →
        columns ∈ l ++ [other] ∧ w.total? columns = some (some total) := by
      rintro x hx heq
      obtain ⟨rfl, rfl⟩ := Prod.mk.inj heq
      exact ⟨by simp, Option.join_eq_some_iff.1 hx⟩
    unfold Tally.add at h
    split at h
    · rename_i x hx
      split at h
      · split at h
        · exact hkept h
        · exact hreplaced x hx (Option.some.inj h)
      · exact hreplaced x hx (Option.some.inj h)
    · exact hkept h

/-- How a call ends: its matrix or its weights are refused, there are no rows, or what is kept of all permutations decides. -/
inductive Called (m : Enumeration α n) (goal : Goal) (w : Weights α) : Solved α (Enumeration α n) → Prop where
  | mismatched : Called m goal w ⟨.error (.sizeMismatch n w.n), m, []⟩
  | trivial : n = 0 → Called m goal w ⟨.ok (), new n, []⟩
  | failed (e : Failure α) (events : List (Event α)) : isMismatch (.error e : Except (Failure α) Unit) = false →
      Called m goal w ⟨.error e, new n, events⟩
  | found {columns : List ℕ} {total : α} (events : List (Event α)) : w.n = n →
      (tally goal w).best = some (columns, total) → Called m goal w ⟨.ok (), ⟨⟨columns, inverse columns, total⟩⟩, events⟩

/-- A call ends in one of these ways. -/
theorem called_solve (m : Enumeration α n) (goal : Goal) (w : Weights α) : Called m goal w (m.solve goal w) := by
  unfold solve
  split
  · exact .mismatched
  rename_i hsize
  split
  · rename_i hn
    exact .trivial hn
  split
  · exact .failed (.tooLarge n limit) [] rfl
  split
  · exact .failed .noEdge [] rfl
  cases hbest : (tally goal w).best with
  | none =>
    simp only [hbest]
    exact .failed (.noPerfectMatching _ n) _ rfl
  | some best =>
    simp only [hbest]
    exact .found _ (not_not.1 hsize) hbest

/-- A call that is heard leaves a permutation along allowed edges if it succeeds, and nothing if it fails. -/
theorem leaves_solve (m : Enumeration α n) (goal : Goal) (w : Weights α) (h : isMismatch (m.solve goal w).outcome = false) :
    Leaves w n (m.solve goal w).outcome (m.solve goal w).matcher.result := by
  have hcalled := called_solve m goal w
  generalize m.solve goal w = r at h hcalled
  cases hcalled with
  | mismatched => exact nomatch h
  | trivial hn =>
    subst hn
    exact .ok (PrimalDual.isPermutation_empty w)
  | failed e _ _ => exact .error e
  | found _ hsize hbest =>
    subst hsize
    rw [tally_eq_foldl] at hbest
    obtain ⟨hmem, htotal⟩ := mem_of_foldl_best _ hbest
    exact .ok (isPermutation_inverse (Weights.isPerfect_of_total? (Permutations.mem_all.1 hmem) htotal))

/-- A call that is refused for the size of its matrix leaves the matcher as it was. -/
theorem matcher_of_isMismatch (m : Enumeration α n) (goal : Goal) (w : Weights α)
    (h : isMismatch (m.solve goal w).outcome = true) : (m.solve goal w).matcher = m := by
  have hcalled := called_solve m goal w
  generalize m.solve goal w = r at h hcalled
  cases hcalled with
  | mismatched => rfl
  | trivial _ => exact nomatch h
  | failed _ _ hheard => exact Bool.noConfusion (hheard.symm.trans h)
  | found _ _ _ => exact nomatch h

end Enumeration

variable [LawfulScalar α]

/-- A call that is heard leaves a permutation along allowed edges if it succeeds, and nothing if it fails. -/
theorem PrimalDual.leaves_solve (m : PrimalDual α n) (goal : Goal) (w : Weights α)
    (h : isMismatch (m.solve goal w).outcome = false) :
    Leaves w n (m.solve goal w).outcome (m.solve goal w).matcher.result := by
  have hcalled := called_solve m goal w
  generalize m.solve goal w = r at h hcalled
  cases hcalled with
  | mismatched _ => exact nomatch h
  | trivial _ hn =>
    subst hn
    exact .ok (isPermutation_empty w)
  | noEdge _ _ _ => exact .error _
  | unshiftable _ _ _ _ => exact .error _
  | searched hsize hn hbounds hshift hended =>
    obtain ⟨hbetween, _, hpos, hle⟩ := between_shift hbounds hshift hsize
    rcases hended.sound hsize hn hbetween (hpos.le.trans hle) with ⟨hok, hperm⟩ | ⟨k, herror, _⟩
    · rw [hok]
      exact .ok hperm
    · rw [result_of_searchTable_eq_error herror, herror]
      exact .error _

namespace Solver

/-- A call that is heard leaves a permutation along allowed edges if it succeeds, and nothing if it fails. -/
theorem leaves_solve (e : Solver α n) (goal : Goal) (w : Weights α) (h : isMismatch (e.solve goal w).outcome = false) :
    Leaves w n (e.solve goal w).outcome (e.solve goal w).matcher.assignment := by
  cases e with
  | primalDual m => exact m.leaves_solve goal w h
  | enumeration m => exact m.leaves_solve goal w h

/-- A call that is refused for the size of its matrix leaves the matcher as it was. -/
theorem matcher_of_isMismatch (e : Solver α n) (goal : Goal) (w : Weights α)
    (h : isMismatch (e.solve goal w).outcome = true) : (e.solve goal w).matcher = e := by
  cases e with
  | primalDual m => exact congrArg Solver.primalDual (m.matcher_of_isMismatch goal w h)
  | enumeration m => exact congrArg Solver.enumeration (m.matcher_of_isMismatch goal w h)

omit [LawfulScalar α] in
/-- A new matcher has no result. -/
theorem assignment_new (method : Method) (n : ℕ) : (new method n : Solver α n).assignment = .empty := by
  cases method <;> rfl

/-- After any calls on binary64 weights, of any sizes and with any outcomes, a matcher of either method has no result if no call was heard or
the last one that was heard has failed; if that one has succeeded, the result is a permutation and its inverse on allowed edges of its
matrix. A call that is refused for the size of its matrix is not heard. -/
theorem assignment_after (method : Method) (calls : List (Call Float)) :
    let a := (after method calls : Solver Float n).assignment
    match lastHeard? method n calls with
    | none => a = .empty
    | some (_, .error _) => a = .empty
    | some ((_, w), .ok ()) => PrimalDual.IsPermutation w n a := by
  intro a
  rcases afterCalls_eq Solver.solve matcher_of_isMismatch (new method n : Solver Float n) calls with
    ⟨hnone, hnew⟩ | ⟨e, goal, w, hlast, hheard, hleft⟩
  · rw [lastHeard?, hnone]
    exact (congrArg assignment hnew).trans (assignment_new method n)
  · have hleaves := e.leaves_solve goal w hheard
    have ha : (e.solve goal w).matcher.assignment = a := (congrArg assignment hleft).symm
    rw [ha] at hleaves
    rw [lastHeard?, hlast]
    generalize (e.solve goal w).outcome = outcome at hleaves
    clear_value a
    cases hleaves with
    | ok hperm => exact hperm
    | error _ => rfl

/-- A matrix with two rows is refused by a matcher for one row that has just matched it, and the matching can still be read. -/
theorem assignment_kept :
    let one : Weights Float := ⟨1, #v[some (Float.ofBits 0x3ff0000000000000)]⟩
    let two : Weights Float := ⟨2, Vector.replicate 4 (some (Float.ofBits 0x3ff0000000000000))⟩
    let e : Solver Float 1 := after .primalDual [(.max, one)]
    let r := e.solve .max two
    r.outcome = .error (.sizeMismatch 1 2) ∧ r.matcher = after .primalDual [(.max, one), (.max, two)] ∧
      r.matcher.assignment.source = [0] ∧ r.matcher.assignment.dest = [0] := by
  intro one two e r
  exact ⟨rfl, rfl, by decide +kernel, by decide +kernel⟩

end Solver

end PerfectMatching
