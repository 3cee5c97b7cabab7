import PerfectMatching.Proofs.Publish

/-!
# Perfect matchings as permutations

A perfect matching is the list of a permutation along allowed edges (`Weights.IsPerfect.exists_perm`), and its total is the sum of
the weights of these edges (`Weights.total?_columnsOf`).
-/

namespace PerfectMatching

variable {α : Type} {n : ℕ}

/-- Every list of the rows in some order is the list of a permutation. -/
theorem exists_columnsOf_eq {columns : List ℕ} (h : columns.Perm (List.range n)) :
    ∃ e : Equiv.Perm (Fin n), columns = columnsOf e := by
  have hlength : columns.length = n := by rw [h.length_eq, List.length_range]
  have hlt : ∀ (i : ℕ) (hi : i < columns.length), columns[i] < n := fun i hi =>
    List.mem_range.1 (h.mem_iff.1 (List.getElem_mem hi))
  have hnodup : columns.Nodup := h.nodup_iff.2 List.nodup_range
  let column : Fin n → Fin n := fun i => ⟨columns.get (i.cast hlength.symm), hlt _ _⟩
  have hinj : Function.Injective column := fun i k heq =>
    Fin.ext (hnodup.getElem_inj_iff.1 (congrArg Fin.val heq))
  refine ⟨Equiv.ofBijective column (Finite.injective_iff_bijective.1 hinj), ?_⟩
  refine List.ext_getElem (by rw [hlength, length_columnsOf]) fun i hi _ => ?_
  simp only [columnsOf, List.getElem_map, List.getElem_finRange]
  rfl

namespace Weights

variable {w : Weights α}

/-- The list of a permutation along allowed edges is a perfect matching. -/
theorem isPerfect_columnsOf {e : Equiv.Perm (Fin w.n)} (h : ∀ i, ∃ x, w.edge i (e i) = some x) :
    w.IsPerfect (columnsOf e) := by
  refine ⟨columnsOf_perm e, fun i hi => ?_⟩
  rw [length_columnsOf] at hi
  obtain ⟨x, hx⟩ := h ⟨i, hi⟩
  simp only [columnsOf, List.getElem_map, List.getElem_finRange]
  exact ⟨hi, (e ⟨i, hi⟩).isLt, Option.isSome_iff_exists.2 ⟨x, hx⟩⟩

/-- A perfect matching is the list of a permutation along allowed edges. -/
theorem IsPerfect.exists_perm {columns : List ℕ} (h : w.IsPerfect columns) :
    ∃ e : Equiv.Perm (Fin w.n), columns = columnsOf e ∧ ∀ i, ∃ x, w.edge i (e i) = some x := by
  obtain ⟨e, rfl⟩ := exists_columnsOf_eq h.perm
  refine ⟨e, rfl, fun i => ?_⟩
  obtain ⟨_, _, hsome⟩ := h.allowed i.val (by rw [length_columnsOf]; exact i.isLt)
  simp only [columnsOf, List.getElem_map, List.getElem_finRange] at hsome
  exact Option.isSome_iff_exists.1 hsome

variable [Scalar α]

/-- Adding up edges all of which are allowed. -/
theorem addTotal?_eq {columns : List ℕ} {weights : List α} (hlength : columns.length = weights.length) (sum : α) (i : ℕ)
    (h : ∀ (k : ℕ) (hk : k < columns.length), w.get? (i + k) columns[k] = some (some (weights.get ⟨k, hlength ▸ hk⟩))) :
    w.addTotal? sum i columns = some (some (weights.foldl (· + ·) sum)) := by
  induction columns generalizing weights sum i with
  | nil =>
    rw [List.eq_nil_of_length_eq_zero hlength.symm]
    rfl
  | cons j columns ih =>
    cases weights with
    | nil => exact nomatch hlength
    | cons x weights =>
      have hfirst : w.get? i j = some (some x) := h 0 (Nat.zero_lt_succ _)
      rw [addTotal?, hfirst, List.foldl_cons]
      refine ih (Nat.succ.inj hlength) (sum + x) (i + 1) fun k hk => ?_
      have hnext := h (k + 1) (Nat.succ_lt_succ hk)
      rw [Nat.add_assoc, Nat.add_comm 1 k]
      exact hnext

/-- The total of a perfect matching is the sum of the weights of its edges. -/
theorem total?_columnsOf {e : Equiv.Perm (Fin w.n)} {weight : Fin w.n → α} (h : ∀ i, w.edge i (e i) = some (weight i)) :
    w.total? (columnsOf e) = some (some (Scalar.sum ((List.finRange w.n).map weight))) := by
  refine addTotal?_eq (by simp) _ 0 fun k hk => ?_
  have hk : k < w.n := by rwa [length_columnsOf] at hk
  have hget := w.get?_eq_edge ⟨k, hk⟩ (e ⟨k, hk⟩)
  rw [h] at hget
  simpa [columnsOf] using hget

end Weights

end PerfectMatching
