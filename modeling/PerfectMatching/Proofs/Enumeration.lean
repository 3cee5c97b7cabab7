import Mathlib.Data.List.Induction
import PerfectMatching.Proofs.Binary64.Opposite
import PerfectMatching.Proofs.Permutations
import PerfectMatching.Proofs.Soundness

/-!
# The first of the best permutations

The enumeration passes every permutation (`Permutations.mem_all`), and what it keeps after each of them is the first of the best on
allowed edges so far (`Enumeration.summarizes_foldl`). Hence a call on finite binary64 weights succeeds exactly if there is a perfect
matching, and its result is the first in the order of the enumeration among those that no other one surpasses
(`Enumeration.solve_best`).
-/

namespace PerfectMatching

open LawfulScalar

variable {α : Type} [Scalar α] {n : ℕ} {goal : Goal} {w : Weights α}

/-! ## Totals of permutations -/

namespace Weights

/-- If the weights of a list of columns add up to a total, all these edges are allowed. -/
theorem get?_of_addTotal? {columns : List ℕ} {sum total : α} {i : ℕ} (h : w.addTotal? sum i columns = some (some total)) (k : ℕ)
    (hk : k < columns.length) : ∃ x, w.get? (i + k) columns[k] = some (some x) := by
  induction columns generalizing sum i k with
  | nil => exact absurd hk (Nat.not_lt_zero k)
  | cons j columns ih =>
    rw [addTotal?] at h
    split at h
    · cases h
    · cases h
    · rename_i x hx
      cases k with
      | zero => exact ⟨x, hx⟩
      | succ k =>
        obtain ⟨y, hy⟩ := ih h k (Nat.lt_of_succ_lt_succ hk)
        exact ⟨y, by rwa [Nat.add_assoc, Nat.add_comm 1 k] at hy⟩

/-- A permutation with a total is a perfect matching. -/
theorem isPerfect_of_total? {columns : List ℕ} {total : α} (hperm : columns.Perm (List.range w.n))
    (h : w.total? columns = some (some total)) : w.IsPerfect columns := by
  refine ⟨hperm, fun i hi => ?_⟩
  have hrow : i < w.n := by rwa [hperm.length_eq, List.length_range] at hi
  have hcol : columns[i] < w.n := List.mem_range.1 (hperm.mem_iff.1 (List.getElem_mem hi))
  obtain ⟨x, hx⟩ := get?_of_addTotal? h i hi
  rw [Nat.zero_add, w.get?_eq_edge ⟨i, hrow⟩ ⟨columns[i], hcol⟩] at hx
  exact ⟨hrow, hcol, Option.isSome_iff_exists.2 ⟨x, Option.some.inj hx⟩⟩

/-- The total of a perfect matching is the sum of allowed weights. -/
theorem IsPerfect.exists_total? {columns : List ℕ} (h : w.IsPerfect columns) :
    ∃ xs : List α, (∀ x ∈ xs, x ∈ w.allowed) ∧ w.total? columns = some (some (Scalar.sum xs)) := by
  obtain ⟨e, rfl, he⟩ := h.exists_perm
  choose weight hweight using he
  refine ⟨(List.finRange w.n).map weight, fun x hx => ?_, total?_columnsOf hweight⟩
  obtain ⟨i, _, rfl⟩ := List.mem_map.1 hx
  exact mem_allowed_of_edge (hweight i)

/-- The permutations with a total are the perfect matchings. -/
theorem isPerfect_iff_total? {columns : List ℕ} :
    w.IsPerfect columns ↔ columns ∈ Permutations.all w.n ∧ ∃ x, w.total? columns = some (some x) := by
  rw [Permutations.mem_all]
  refine ⟨fun h => ?_, fun ⟨hperm, x, hx⟩ => isPerfect_of_total? hperm hx⟩
  obtain ⟨xs, _, hxs⟩ := h.exists_total?
  exact ⟨h.perm, _, hxs⟩

omit [Scalar α] in
/-- A matrix with a row and a perfect matching allows an edge. -/
theorem HasPerfect.allowed_ne_nil (h : w.HasPerfect) (hn : 0 < w.n) : w.allowed ≠ [] := by
  obtain ⟨columns, hperfect⟩ := h
  obtain ⟨e, _, he⟩ := hperfect.exists_perm
  obtain ⟨x, hx⟩ := he ⟨0, hn⟩
  exact List.ne_nil_of_mem (mem_allowed_of_edge hx)

/-- There is a least weight exactly if an edge is allowed. -/
theorem isNone_min?_iff : w.min?.isNone = true ↔ w.allowed = [] := by
  rw [min?]
  cases w.allowed <;> simp

end Weights

namespace Enumeration

/-! ## Results -/

omit [Scalar α] in
/-- The rows of the columns of a permutation are its inverse. -/
theorem inverse_columnsOf (e : Equiv.Perm (Fin n)) : inverse (columnsOf e) = columnsOf e.symm := by
  refine List.ext_getElem (by simp [inverse]) fun j hj _ => ?_
  have hj : j < n := by simpa [inverse] using hj
  have hnodup : (columnsOf e).Nodup := (columnsOf_perm e).nodup_iff.2 List.nodup_range
  obtain ⟨i, hi⟩ : ∃ i, e i = ⟨j, hj⟩ := ⟨e.symm ⟨j, hj⟩, e.apply_symm_apply _⟩
  obtain ⟨hplace, hget⟩ := List.getElem?_eq_some_iff.1 (getElem?_columnsOf e i)
  have hidx := hnodup.idxOf_getElem i.val hplace
  rw [hget, hi] at hidx
  have hback : e.symm ⟨j, hj⟩ = i := by rw [← hi, Equiv.symm_apply_apply]
  simp only [inverse, columnsOf, List.getElem_map, List.getElem_range, List.getElem_finRange] at hidx ⊢
  exact hidx.trans (congrArg Fin.val hback.symm)

omit [Scalar α] in
/-- A perfect matching with its inverse is a permutation along allowed edges. -/
theorem isPermutation_inverse {columns : List ℕ} {total : α} (h : w.IsPerfect columns) :
    PrimalDual.IsPermutation w w.n ⟨columns, inverse columns, total⟩ := by
  obtain ⟨e, rfl, _⟩ := h.exists_perm
  rw [inverse_columnsOf]
  refine ⟨columnsOf_perm e, columnsOf_perm e.symm, PrimalDual.getElem?_columnsOf_iff e, fun i j hij => ?_⟩
  obtain ⟨hi, rfl⟩ := List.getElem?_eq_some_iff.1 hij
  exact h.allowed i hi

/-- A call whose problem is small enough and has an allowed edge returns what it has kept of all permutations. -/
theorem solve_of_best (m : Enumeration α n) {goal : Goal} (h : w.n = n) (hn : 0 < n) (hlimit : n ≤ limit) (hedge : w.allowed ≠ [])
    {columns : List ℕ} {total : α} (hbest : (tally goal w).best = some (columns, total)) :
    m.solve goal w = ⟨.ok (), ⟨⟨columns, inverse columns, total⟩⟩, [.enumerated n goal total]⟩ := by
  simp only [solve, hbest]
  rw [if_neg (not_not.2 h), if_neg hn.ne', if_neg (not_lt.2 hlimit), if_neg fun hnone => hedge (Weights.isNone_min?_iff.1 hnone)]

/-- If nothing has been kept, it says so. -/
theorem solve_of_none (m : Enumeration α n) {goal : Goal} (h : w.n = n) (hn : 0 < n) (hlimit : n ≤ limit) (hedge : w.allowed ≠ [])
    (hbest : (tally goal w).best = none) :
    m.solve goal w = ⟨.error (.noPerfectMatching (tally goal w).matched n), new n, [.enumerationFailed n goal]⟩ := by
  simp only [solve, hbest]
  rw [if_neg (not_not.2 h), if_neg hn.ne', if_neg (not_lt.2 hlimit), if_neg fun hnone => hedge (Weights.isNone_min?_iff.1 hnone)]

/-! ## What the permutations amount to -/

/-- The first of the best of some permutations, and its total: those before it are worse, and none is better. -/
structure IsFirst (goal : Goal) (w : Weights α) (l : List (List ℕ)) (columns : List ℕ) (total : α) : Prop where
  total_eq : w.total? columns = some (some total)
  best : ∀ other ∈ l, ∀ x, w.total? other = some (some x) → Scalar.le (goal.signed x) (goal.signed total) = true
  first : ∃ before after, l = before ++ columns :: after ∧
    ∀ other ∈ before, ∀ x, w.total? other = some (some x) → Scalar.le (goal.signed total) (goal.signed x) = false

/-- What has been kept of some permutations: the first of the best ones, or nothing if none has a total. -/
structure Summarizes (goal : Goal) (w : Weights α) (l : List (List ℕ)) (tally : Tally α) : Prop where
  none_of : tally.best = none → ∀ columns ∈ l, ∀ x, w.total? columns ≠ some (some x)
  first_of : ∀ columns total, tally.best = some (columns, total) → IsFirst goal w l columns total

/-- What all permutations amount to, as a fold over their list. -/
theorem tally_eq_foldl (goal : Goal) (w : Weights α) :
    tally goal w = (Permutations.all w.n).foldl (Tally.add goal w) ⟨none, 0⟩ :=
  Permutations.fold_eq_foldl_take _ _ _ _

/-- A permutation that is not better comes after the first of the best. -/
theorem IsFirst.concat {l : List (List ℕ)} {columns other : List ℕ} {total : α} (h : IsFirst goal w l columns total)
    (hother : ∀ x, w.total? other = some (some x) → Scalar.le (goal.signed x) (goal.signed total) = true) :
    IsFirst goal w (l ++ [other]) columns total := by
  obtain ⟨before, after, hl, hbefore⟩ := h.first
  refine ⟨h.total_eq, fun columns' hmem x hx => ?_, before, after ++ [other], by simp [hl], hbefore⟩
  rcases List.mem_append.1 hmem with hmem | hmem
  · exact h.best columns' hmem x hx
  · rw [List.mem_singleton.1 hmem] at hx
    exact hother x hx

variable [LawfulScalar α]

/-- A permutation that is better than all before it is the first of the best. -/
theorem isFirst_concat {l : List (List ℕ)} {columns : List ℕ} {total : α} (htotal : w.total? columns = some (some total))
    (hdefined : ∀ other ∈ l ++ [columns], ∀ x, w.total? other = some (some x) →
      Scalar.le (goal.signed x) (goal.signed x) = true)
    (hbefore : ∀ other ∈ l, ∀ x, w.total? other = some (some x) → Scalar.le (goal.signed total) (goal.signed x) = false) :
    IsFirst goal w (l ++ [columns]) columns total := by
  have hself := hdefined columns (by simp) total htotal
  refine ⟨htotal, fun other hother x hx => ?_, l, [], rfl, hbefore⟩
  rcases List.mem_append.1 hother with hmem | hmem
  · refine (le_total (hdefined other hother x hx) hself).resolve_right fun hle => ?_
    exact Bool.noConfusion (hle.symm.trans (hbefore other hmem x hx))
  · rw [List.mem_singleton.1 hmem] at hx
    obtain rfl := Option.some.inj (Option.some.inj (hx.symm.trans htotal))
    exact hself

/-- What is kept after one more permutation. -/
theorem Summarizes.add {l : List (List ℕ)} {tally : Tally α} {columns : List ℕ} (h : Summarizes goal w l tally)
    (hdefined : ∀ other ∈ l ++ [columns], ∀ x, w.total? other = some (some x) →
      Scalar.le (goal.signed x) (goal.signed x) = true) :
    Summarizes goal w (l ++ [columns]) (tally.add goal w columns) := by
  unfold Tally.add
  cases htotal : (w.total? columns).join with
  | none =>
    -- The permutation uses a forbidden edge: what was kept is kept.
    have hnot : ∀ x, w.total? columns ≠ some (some x) := fun x hx => by
      rw [hx] at htotal
      exact nomatch htotal
    refine ⟨fun hbest other hother x hx => ?_, fun best total hbest => ?_⟩
    · rcases List.mem_append.1 hother with hmem | hmem
      · exact h.none_of hbest other hmem x hx
      · exact hnot x (List.mem_singleton.1 hmem ▸ hx)
    · exact (h.first_of best total hbest).concat fun x hx => absurd hx (hnot x)
  | some total =>
    have htotal : w.total? columns = some (some total) := Option.join_eq_some_iff.1 htotal
    have hreplaced : (∀ other ∈ l, ∀ x, w.total? other = some (some x) →
        Scalar.le (goal.signed total) (goal.signed x) = false) →
        Summarizes goal w (l ++ [columns]) { tally with best := some (columns, total) } := by
      intro hbefore
      refine ⟨nofun, fun best total' hbest => ?_⟩
      obtain ⟨rfl, rfl⟩ := Prod.mk.inj (Option.some.inj hbest)
      exact isFirst_concat htotal hdefined hbefore
    cases hbest : tally.best with
    | none => exact hreplaced fun other hother x hx => absurd hx (h.none_of hbest other hother x)
    | some kept =>
      obtain ⟨kept, best⟩ := kept
      have hkept := h.first_of kept best hbest
      simp only
      split
      · rename_i hle
        refine ⟨fun hnone => (nomatch hbest.symm.trans hnone), fun columns' total' hbest' => ?_⟩
        obtain ⟨rfl, rfl⟩ := Prod.mk.inj (Option.some.inj (hbest.symm.trans hbest'))
        refine hkept.concat fun x hx => ?_
        obtain rfl := Option.some.inj (Option.some.inj (hx.symm.trans htotal))
        exact hle
      · rename_i hlt
        refine hreplaced fun other hother x hx => Bool.eq_false_iff.2 fun hle => hlt ?_
        exact le_trans hle (hkept.best other hother x hx)

/-- What is kept of some permutations is the first of the best ones. -/
theorem summarizes_foldl (l : List (List ℕ))
    (hdefined : ∀ columns ∈ l, ∀ x, w.total? columns = some (some x) → Scalar.le (goal.signed x) (goal.signed x) = true) :
    Summarizes goal w l (l.foldl (Tally.add goal w) ⟨none, 0⟩) := by
  induction l using List.reverseRecOn with
  | nil => exact ⟨fun _ _ h => (nomatch h), nofun⟩
  | append_singleton l columns ih =>
    rw [List.foldl_append, List.foldl_cons, List.foldl_nil]
    exact (ih fun other hother => hdefined other (List.mem_append_left _ hother)).add hdefined

/-! ## Binary64 weights -/

/-- The total of a perfect matching on finite binary64 weights is a number, which may be infinite. -/
theorem le_self_of_total? {w : Weights Float} (hfinite : w.IsFinite) (goal : Goal) {columns : List ℕ} (h : w.IsPerfect columns) {x : Float}
    (hx : w.total? columns = some (some x)) : Scalar.le (goal.signed x) (goal.signed x) = true := by
  obtain ⟨xs, hxs, htotal⟩ := h.exists_total?
  obtain rfl := Option.some.inj (Option.some.inj (hx.symm.trans htotal))
  have hself : Scalar.le (Scalar.sum xs) (Scalar.sum xs) = true :=
    Binary64.le_self_iff.2 (Binary64.isNaN_sum fun x hx => hfinite x (hxs x hx))
  cases goal with
  | max => exact hself
  | min => rwa [Goal.signed, neg_le_neg_self]

/-- On finite binary64 weights, for at least one row and not too many, a call succeeds exactly if there is a perfect matching. It
then returns one with its inverse and its total, no other one has a better total in the direction of the goal, and every one that
comes before it in the order of the enumeration has another total. If there is none, the call says so, or that no edge is allowed. -/
theorem solve_best (m : Enumeration Float n) (goal : Goal) (w : Weights Float) (h : w.n = n) (hn : 0 < n) (hlimit : n ≤ limit)
    (hfinite : w.IsFinite) :
    let r := m.solve goal w
    let a := r.matcher.result
    (r.outcome = .ok () ↔ w.HasPerfect) ∧
      (r.outcome = .ok () → PrimalDual.IsPermutation w n a ∧ w.total? a.source = some (some a.weight) ∧
        (∀ other, w.IsPerfect other →
          ∃ x, w.total? other = some (some x) ∧ Scalar.le (goal.signed x) (goal.signed a.weight) = true) ∧
        ∃ before after, Permutations.all n = before ++ a.source :: after ∧
          ∀ other ∈ before, ∀ x, w.total? other = some (some x) → (x == a.weight) = false) ∧
      (w.allowed = [] → r.outcome = .error .noEdge) ∧
      (w.allowed ≠ [] → ¬w.HasPerfect → ∃ k, r.outcome = .error (.noPerfectMatching k n)) := by
  intro r a
  subst h
  by_cases hedge : w.allowed = []
  · have hr : r = ⟨.error .noEdge, new w.n, []⟩ := by
      simp only [r, solve]
      rw [if_neg (not_not.2 rfl), if_neg hn.ne', if_neg (not_lt.2 hlimit), if_pos (Weights.isNone_min?_iff.2 hedge)]
    rw [hr]
    exact ⟨iff_of_false nofun fun hperfect => hperfect.allowed_ne_nil hn hedge, nofun, fun _ => rfl, fun h => absurd hedge h⟩
  have hsummary : Summarizes goal w (Permutations.all w.n) (tally goal w) := by
    rw [tally_eq_foldl]
    exact summarizes_foldl _ fun columns hmem x hx =>
      le_self_of_total? hfinite goal (Weights.isPerfect_iff_total?.2 ⟨hmem, x, hx⟩) hx
  cases hbest : (tally goal w).best with
  | none =>
    have hr : r = _ := solve_of_none m rfl hn hlimit hedge hbest
    have hnot : ¬w.HasPerfect := by
      rintro ⟨columns, hperfect⟩
      obtain ⟨hmem, x, hx⟩ := Weights.isPerfect_iff_total?.1 hperfect
      exact hsummary.none_of hbest columns hmem x hx
    simp only [a, hr]
    exact ⟨iff_of_false nofun hnot, nofun, fun h => absurd h hedge, fun _ _ => ⟨_, rfl⟩⟩
  | some best =>
    obtain ⟨columns, total⟩ := best
    have hr : r = _ := solve_of_best m rfl hn hlimit hedge hbest
    have hfirst := hsummary.first_of columns total hbest
    obtain ⟨before, after, hall, hbefore⟩ := hfirst.first
    have hperfect : w.IsPerfect columns := Weights.isPerfect_iff_total?.2 ⟨by rw [hall]; simp, total, hfirst.total_eq⟩
    simp only [a, hr]
    refine ⟨iff_of_true trivial ⟨columns, hperfect⟩, fun _ => ⟨isPermutation_inverse hperfect, hfirst.total_eq, ?_, ?_⟩,
      fun h => absurd h hedge, fun _ h => absurd ⟨columns, hperfect⟩ h⟩
    · intro other hother
      obtain ⟨hmem, x, hx⟩ := Weights.isPerfect_iff_total?.1 hother
      exact ⟨x, hx, hfirst.best other hmem x hx⟩
    · refine ⟨before, after, hall, fun other hother x hx => Bool.eq_false_iff.2 fun heq => ?_⟩
      exact Bool.noConfusion ((Binary64.le_signed_of_beq goal heq).symm.trans (hbefore other hother x hx))

/-- Of two perfect matchings with the totals minus zero and zero, which are equal, the first one is returned. -/
theorem solve_best_two :
    let w : Weights Float := ⟨2, #v[some (-Float.ofBits 0), some (Float.ofBits 0), some (Float.ofBits 0), some (-Float.ofBits 0)]⟩
    let r := (new 2 : Enumeration Float 2).solve .max w
    w.IsFinite ∧ r.outcome = .ok () ∧ r.matcher.result.source = [0, 1] ∧ PrimalDual.IsPermutation w 2 r.matcher.result := by
  intro w r
  have hfinite : w.IsFinite := by
    unfold Weights.IsFinite
    decide +kernel
  have hperfect : w.HasPerfect :=
    ⟨_, Weights.isPerfect_columnsOf (e := Equiv.refl (Fin 2)) fun i => Option.isSome_iff_exists.1 (by revert i; decide)⟩
  obtain ⟨hok, hresult, _⟩ := solve_best (new 2) .max w rfl two_pos (by decide) hfinite
  exact ⟨hfinite, hok.2 hperfect, by decide +kernel, (hresult (hok.2 hperfect)).1⟩

end Enumeration

end PerfectMatching
