import PerfectMatching.Proofs.Contract
import PerfectMatching.Proofs.Json.Standard
import PerfectMatching.Proofs.ReportedWeight

/-!
# Solved assignments in JSON

A call sums up the weights of its matching and does not check the sum. So finite weights may be matched with an infinite total, which
is written as null, and then no lawful library reads the assignment back (`Solver.refused_of_overflow`). If the total is finite, the
assignment is read with the same nodes and a weight at most a unit in the last place away, and the total is finite unless the weights
come close to the limit (`Solver.reread_of_solve`).
-/

namespace PerfectMatching

open LawfulScalar

/-- Without rows a call that succeeds reports zero. -/
theorem PrimalDual.isFinite_weight_of_eq_zero {w : Weights Float} (m : PrimalDual Float w.n) {goal : Goal} (hzero : w.n = 0)
    (hok : (m.solve goal w).outcome = .ok ()) : Scalar.isFinite (m.solve goal w).matcher.result.weight = true := by
  have hcalled := called_solve m goal w
  generalize m.solve goal w = r at hcalled hok
  cases hcalled with
  | mismatched _ => exact nomatch hok
  | trivial _ _ => exact isFinite_zero
  | noEdge _ _ _ => exact nomatch hok
  | unshiftable _ _ _ _ => exact nomatch hok
  | searched _ hn _ _ _ => exact absurd hzero hn.ne'

/-- A call that succeeds on finite binary64 weights by trying every permutation reports a finite weight if what the weights of all rows can
add up to stays well in range. -/
theorem Enumeration.isFinite_weight_of_solve {w : Weights Float} (m : Enumeration Float w.n) {goal : Goal}
    (hsize : w.n * w.n < wordLimit) (hfinite : w.IsFinite) (hok : (m.solve goal w).outcome = .ok ()) {bound : ℚ}
    (hbound : ∀ x ∈ w.allowed, |value x| ≤ bound) (hrange : w.n * bound ≤ 2 ^ 1022) :
    Scalar.isFinite (m.solve goal w).matcher.result.weight = true := by
  have hcalled := called_solve m goal w
  generalize m.solve goal w = r at hcalled hok
  cases hcalled with
  | mismatched => exact nomatch hok
  | trivial _ => exact isFinite_zero
  | failed _ _ _ => exact nomatch hok
  | @found columns total _ _ hbest =>
    rw [tally_eq_foldl] at hbest
    obtain ⟨hmem, htotal⟩ := mem_of_foldl_best _ hbest
    obtain ⟨e, rfl, hallowed⟩ := (Weights.isPerfect_of_total? (Permutations.mem_all.1 hmem) htotal).exists_perm
    choose weight hweight using hallowed
    have hsum := Weights.total?_columnsOf hweight
    rw [htotal, Option.some_inj, Option.some_inj] at hsum
    have hmem : ∀ i, weight i ∈ w.allowed := fun i => Weights.mem_allowed_of_edge (hweight i)
    change Scalar.isFinite total = true
    rw [hsum]
    exact PrimalDual.isFinite_total hsize (fun i => hfinite _ (hmem i)) (fun i => hbound _ (hmem i)) hrange

namespace Solver

/-- The nodes of a result are less than the number of rows, so they fit into words. -/
theorem nodes_lt_of_solve {w : Weights Float} (e : Solver Float w.n) {goal : Goal} (hsize : w.n * w.n < wordLimit)
    (hok : (e.solve goal w).outcome = .ok ()) :
    (∀ n ∈ (e.solve goal w).matcher.assignment.source, n < wordLimit) ∧
      ∀ n ∈ (e.solve goal w).matcher.assignment.dest, n < wordLimit := by
  have hleaves := e.leaves_solve goal w (by rw [hok]; rfl)
  rw [hok] at hleaves
  have hrows : ∀ n ∈ List.range w.n, n < wordLimit := fun n hn =>
    (List.mem_range.1 hn).trans ((PrimalDual.lt_of_mul_self_lt hsize).trans (by decide))
  generalize (e.solve goal w).matcher.assignment = a at hleaves
  cases hleaves with
  | ok hperm =>
    exact ⟨fun n hn => hrows n (hperm.source_perm.mem_iff.1 hn), fun n hn => hrows n (hperm.dest_perm.mem_iff.1 hn)⟩

/-- A call that succeeds on finite binary64 weights reports a finite weight if `n` times what the weights of all rows can add up to stays
well in range. -/
theorem isFinite_weight_of_solve {w : Weights Float} (e : Solver Float w.n) {goal : Goal} (hsize : w.n * w.n < wordLimit)
    (hfinite : w.IsFinite) (hok : (e.solve goal w).outcome = .ok ()) {bound : ℚ} (hbound : ∀ x ∈ w.allowed, |value x| ≤ bound)
    (hrange : w.n * (w.n * bound + 1) ≤ 2 ^ 1017) : Scalar.isFinite (e.solve goal w).matcher.assignment.weight = true := by
  cases e with
  | primalDual m =>
    rcases Nat.eq_zero_or_pos w.n with hzero | hn
    · exact m.isFinite_weight_of_eq_zero hzero hok
    · exact m.isFinite_weight_of_mul_le hn hsize hfinite hok hbound hrange
  | enumeration m =>
    refine m.isFinite_weight_of_solve hsize hfinite hok hbound ?_
    have hcount : (0 : ℚ) ≤ w.n := Nat.cast_nonneg _
    rcases le_total bound 0 with hle | hge
    · exact (mul_nonpos_of_nonneg_of_nonpos hcount hle).trans (by positivity)
    · have hsquare : (w.n : ℚ) ≤ w.n * w.n := by exact_mod_cast Nat.le_mul_self w.n
      calc w.n * bound ≤ w.n * w.n * bound := mul_le_mul_of_nonneg_right hsquare hge
        _ ≤ w.n * (w.n * bound + 1) := by linarith
        _ ≤ 2 ^ 1017 := hrange
        _ ≤ 2 ^ 1022 := pow_le_pow_right₀ one_le_two (by norm_num)

/-- A call that succeeds on finite binary64 weights leaves an assignment that a lawful library writes as JSON. If its weight is finite, it
is read as an assignment with the same nodes and a finite weight at most a unit in the last place from this; if its weight is not finite,
it is not read at all. The weight is finite if `n` times what the weights of all rows can add up to stays well in range. -/
theorem reread_of_solve {library : Json.Library} (hlibrary : library.Lawful) {w : Weights Float} (e : Solver Float w.n) (goal : Goal)
    (hsize : w.n * w.n < wordLimit) (hfinite : w.IsFinite) (hok : (e.solve goal w).outcome = .ok ()) {bound : ℚ}
    (hbound : ∀ x ∈ w.allowed, |value x| ≤ bound) :
    let a := (e.solve goal w).matcher.assignment
    (a.weight.isFinite = true → ∃ y, Assignment.ofJson? library (a.json library) = some ⟨a.source, a.dest, y⟩ ∧
      y.isFinite = true ∧ |value y - value a.weight| ≤ Binary64.unit a.weight) ∧
    (a.weight.isFinite = false → Assignment.ofJson? library (a.json library) = none) ∧
    (w.n * (w.n * bound + 1) ≤ 2 ^ 1017 → a.weight.isFinite = true) := by
  intro a
  obtain ⟨hsource, hdest⟩ := nodes_lt_of_solve e hsize hok
  exact ⟨Assignment.exists_ofJson? hlibrary hsource hdest, Assignment.ofJson?_eq_none hlibrary hsource hdest,
    e.isFinite_weight_of_solve hsize hfinite hok hbound⟩

/-- The weights `1` to `4`, of which `2` and `3` are matched, and the standard library. -/
theorem reread_of_solve_two :
    let w : Weights Float := .ofFn 2 fun i j => some (.ofNat (2 * i + j + 1))
    let a := ((new .primalDual 2 : Solver Float 2).solve .max w).matcher.assignment
    ((new .primalDual 2 : Solver Float 2).solve .max w).outcome = .ok () ∧ a.weight.isFinite = true ∧
      ∃ y, Assignment.ofJson? Json.standard (a.json Json.standard) = some ⟨a.source, a.dest, y⟩ ∧ y.isFinite = true ∧
        |value y - value a.weight| ≤ Binary64.unit a.weight := by
  intro w a
  have hok : ((new .primalDual 2 : Solver Float 2).solve .max w).outcome = .ok () := by decide +kernel
  have hfinite : w.IsFinite := by
    unfold Weights.IsFinite
    decide +kernel
  have hbound : ∀ x ∈ w.allowed, |value x| ≤ 4 := by decide +kernel
  obtain ⟨hread, _, hrange⟩ := reread_of_solve Json.lawful_standard (new .primalDual 2) .max (by decide : w.n * w.n < wordLimit)
    hfinite hok hbound
  have hrows : ((w.n : ℕ) : ℚ) = 2 := rfl
  have hweight : a.weight.isFinite = true := by
    refine hrange ?_
    rw [hrows]
    exact (show (2 : ℚ) * (2 * 4 + 1) ≤ 2 ^ 5 by norm_num).trans (pow_le_pow_right₀ one_le_two (by norm_num))
  exact ⟨hok, hweight, hread hweight⟩

/-- Two rows whose best matching has twice the greatest finite weight: either method succeeds, and no lawful library reads its assignment
back. The standard library is lawful. -/
theorem refused_of_overflow :
    Json.standard.Lawful ∧ ∃ w : Weights Float, w.IsFinite ∧ ∀ method,
      let r := (new method w.n : Solver Float w.n).solve .max w
      r.outcome = .ok () ∧ ∀ library : Json.Library, library.Lawful →
        Assignment.ofJson? library (r.matcher.assignment.json library) = none := by
  let w : Weights Float := .ofFn 2 fun i j => some (if i = j then .ofBits 0x7fefffffffffffff else .ofBits 0)
  refine ⟨Json.lawful_standard, w, ?_, fun method => ?_⟩
  · unfold Weights.IsFinite
    decide +kernel
  · intro r
    have hok : r.outcome = .ok () := by cases method <;> decide +kernel
    have hnot : r.matcher.assignment.weight.isFinite = false := by cases method <;> decide +kernel
    obtain ⟨hsource, hdest⟩ := nodes_lt_of_solve (new method w.n) (by decide : w.n * w.n < wordLimit) hok
    exact ⟨hok, fun _ hlibrary => Assignment.ofJson?_eq_none hlibrary hsource hdest hnot⟩

end Solver

end PerfectMatching
