import Mathlib.Algebra.BigOperators.Fin
import Mathlib.Algebra.Order.BigOperators.Group.Finset
import PerfectMatching.Proofs.Search.Drift

/-!
# What the verdicts mean

A search is given up when the dual update that the slacks allow would make the dual variable of some row that has been reached
negative. Lowering the dual variables as far as that row allows makes its variable zero. Exchanging the path that leads to
it leaves the row free and keeps every matched column matched (`Grown.exists_rerouted`), so the dual variables add up to at most
`n - 1` greatest weights. They bound the weight of every perfect matching, which is at least `n` least weights
(`State.Near.abandoned_le`). When a search finds a perfect matching, the dual variables add up to its weight, and bound that of
every other one (`State.Near.sum_le`).
-/

namespace PerfectMatching.PrimalDual

open LawfulScalar State

variable {α : Type} [Scalar α] {n : ℕ} {work : Table α n} {t : State α n}

/-! ## Exchanging a path -/

/-- A matching that leaves row `i`, which hangs at depth `k`, free, and every column matched that was matched before; its edges are
those of the old one and of the trees. -/
structure State.Rerouted (t : State α n) (k : ℕ) (i : Fin n) (mate : Fin n → Option (Fin n)) : Prop where
  free : mate i = none
  covers : ∀ b, t.colMate.get b ≠ none → ∃ a, mate a = some b
  edge : ∀ a b, mate a = some b →
    t.rowMate.get a = some b ∨ t.colLabel.get b = some a ∧ Scalar.positive (t.slack.get b) = false
  deeper : ∀ a, (∀ l ≤ k, ¬t.Rooted l a) → mate a = t.rowMate.get a

/-- The path to a row that hangs in a tree can be exchanged. -/
theorem State.Grown.exists_rerouted (h : Grown work t) {k : ℕ} {i : Fin n} (hk : t.Rooted k i) :
    ∃ mate, t.Rerouted k i mate := by
  -- The path grows by the edge to the column that the row is reached through, and loses the edge that matches the column.
  induction hk with
  | @root i hroot =>
    refine ⟨t.rowMate.get, (h.root_iff i).1 hroot, fun b hb => ?_, fun a b => Or.inl, fun a _ => rfl⟩
    obtain ⟨a, ha⟩ := Option.ne_none_iff_exists'.1 hb
    exact ⟨a, (h.agree a b).2 ha⟩
  | @child k p i j hp hvia hlabel ih =>
    obtain ⟨mate, hmate⟩ := ih
    have hi : t.Rooted (k + 1) i := hp.child hvia hlabel
    obtain ⟨hij, htight⟩ := h.via i j hvia
    have hpi : p ≠ i := by
      rintro rfl
      exact absurd (hp.depth_unique hi) (Nat.lt_succ_self k).ne
    have hdeep : mate i = some j := by
      rw [hmate.deeper i fun l hl hli => ?_, hij]
      have := hi.depth_unique hli
      omega
    refine ⟨fun a => if a = i then none else if a = p then some j else mate a, if_pos rfl, fun b hb => ?_, fun a b hab => ?_,
      fun a ha => ?_⟩
    · obtain ⟨a, ha⟩ := hmate.covers b hb
      by_cases hai : a = i
      · subst hai
        obtain rfl := Option.some.inj (hdeep.symm.trans ha)
        exact ⟨p, by rw [if_neg hpi, if_pos rfl]⟩
      · have hap : a ≠ p := by
          rintro rfl
          exact nomatch hmate.free.symm.trans ha
        exact ⟨a, by rw [if_neg hai, if_neg hap, ha]⟩
    · by_cases hai : a = i
      · rw [if_pos hai] at hab
        exact nomatch hab
      · rw [if_neg hai] at hab
        by_cases hap : a = p
        · rw [if_pos hap] at hab
          obtain rfl := Option.some.inj hab
          exact Or.inr ⟨hap ▸ hlabel, htight⟩
        · rw [if_neg hap] at hab
          exact hmate.edge a b hab
    · have hai : a ≠ i := by
        rintro rfl
        exact ha (k + 1) le_rfl hi
      have hap : a ≠ p := by
        rintro rfl
        exact ha k (Nat.le_succ k) hp
      rw [if_neg hai, if_neg hap]
      exact hmate.deeper a fun l hl => ha l (Nat.le_succ_of_le hl)

/-- What is not negative and zero outside the columns that a matching covers adds up to at most the sum along the matching. -/
theorem sum_le_sum_elim {mate : Fin n → Option (Fin n)} {col : Fin n → ℚ} (hnonneg : ∀ j, 0 ≤ col j)
    (hcovers : ∀ j, col j ≠ 0 → ∃ a, mate a = some j) : ∑ j, col j ≤ ∑ a, (mate a).elim 0 col := by
  have hterm : ∀ j a, 0 ≤ if mate a = some j then col j else 0 := by
    intro j a
    split
    · exact hnonneg j
    · exact le_rfl
  calc ∑ j, col j ≤ ∑ j, ∑ a, if mate a = some j then col j else 0 := by
        refine Finset.sum_le_sum fun j _ => ?_
        by_cases hj : col j = 0
        · rw [hj]
          exact Finset.sum_nonneg fun a _ => by rw [ite_self]
        · obtain ⟨a, ha⟩ := hcovers j hj
          have := Finset.single_le_sum (fun a _ => hterm j a) (Finset.mem_univ a)
          rwa [if_pos ha] at this
    _ = ∑ a, ∑ j, if mate a = some j then col j else 0 := Finset.sum_comm
    _ = ∑ a, (mate a).elim 0 col := by
        refine Finset.sum_congr rfl fun a _ => ?_
        cases hb : mate a with
        | none => simp
        | some b =>
          rw [Finset.sum_eq_single b, if_pos rfl, Option.elim_some]
          · intro j _ hj
            exact if_neg fun heq => hj (Option.some.inj heq).symm
          · exact fun h => absurd (Finset.mem_univ b) h

/-- The dual variables at the ends of the edges of a perfect matching add up to the sum of all. -/
theorem sum_ends (row col : Fin n → ℚ) (e : Equiv.Perm (Fin n)) (c : ℚ) :
    ∑ i, (row i + col (e i) + c) = ∑ i, row i + ∑ j, col j + n * c := by
  rw [Finset.sum_add_distrib, Finset.sum_add_distrib, Equiv.sum_comp e col, Fin.sum_const, nsmul_eq_mul]

/-- A sum over all rows is at least as many times as great as its least term. -/
theorem mul_le_sum {f : Fin n → ℚ} {q : ℚ} (h : ∀ i, q ≤ f i) : n * q ≤ ∑ i, f i := by
  have := Finset.sum_le_sum fun i (_ : i ∈ Finset.univ) => h i
  rwa [Fin.sum_const, nsmul_eq_mul] at this

/-- A sum over all rows is at most as many times as great as its greatest term. -/
theorem sum_le_mul {f : Fin n → ℚ} {q : ℚ} (h : ∀ i, f i ≤ q) : ∑ i, f i ≤ n * q := by
  have := Finset.sum_le_sum fun i (_ : i ∈ Finset.univ) => h i
  rwa [Fin.sum_const, nsmul_eq_mul] at this

/-! ## Giving up -/

/-- Dual variables that may miss the weight of an edge by so much. -/
structure State.Balanced (work : Table α n) (t : State α n) [LawfulScalar α] (greatest miss : ℚ) (row col : Fin n → ℚ) :
    Prop where
  row_nonneg : ∀ i, 0 ≤ row i
  row_le : ∀ i, row i ≤ greatest
  col_nonneg : ∀ j, 0 ≤ col j
  col_unmatched : ∀ j, t.colMate.get j = none → col j = 0
  feasible : ∀ i j w, (work.get i).get j = some w → Scalar.le w w = true → value w ≤ row i + col j + miss
  matched : ∀ i j, t.rowMate.get i = some j → row i + col j ≤ greatest + miss
  label : ∀ i j, t.colLabel.get j = some i → Scalar.positive (t.slack.get j) = false → row i + col j ≤ greatest + miss

variable [LawfulScalar α] {least greatest spent miss : ℚ} {updates : ℕ}

/-- If the dual variable of a row that has been reached is zero, all of them add up to at most `n - 1` greatest weights. -/
theorem State.Balanced.sum_le {row col : Fin n → ℚ} (h : Balanced work t greatest miss row col) (hgrown : Grown work t)
    (hmiss : 0 ≤ miss) {i : Fin n} (hi : t.Reached i) (hzero : row i = 0) :
    ∑ a, row a + ∑ b, col b ≤ (n - 1) * (greatest + miss) := by
  obtain ⟨k, hk⟩ := hgrown.rooted i hi
  obtain ⟨mate, hmate⟩ := hgrown.exists_rerouted hk
  have hcovers : ∀ j, col j ≠ 0 → ∃ a, mate a = some j := fun j hj =>
    hmate.covers j fun hnone => hj (h.col_unmatched j hnone)
  have hterm : ∀ a, row a + (mate a).elim 0 col ≤ greatest + miss := by
    intro a
    cases hab : mate a with
    | none =>
      rw [Option.elim_none]
      linarith [h.row_le a]
    | some b =>
      rw [Option.elim_some]
      rcases hmate.edge a b hab with hmatched | ⟨hlabel, htight⟩
      · exact h.matched a b hmatched
      · exact h.label a b hlabel htight
  have hn : ((n - 1 : ℕ) : ℚ) = n - 1 := by
    have : 1 ≤ n := Nat.succ_le_of_lt (Nat.lt_of_le_of_lt (Nat.zero_le _) i.isLt)
    push_cast [this]
    rfl
  calc ∑ a, row a + ∑ b, col b ≤ ∑ a, row a + ∑ a, (mate a).elim 0 col := by
        have := sum_le_sum_elim h.col_nonneg hcovers
        linarith
    _ = ∑ a, (row a + (mate a).elim 0 col) := Finset.sum_add_distrib.symm
    _ = ∑ a ∈ Finset.univ.erase i, (row a + (mate a).elim 0 col) := by
        rw [Finset.sum_erase]
        rw [hmate.free, hzero, Option.elim_none, add_zero]
    _ ≤ (Finset.univ.erase i).card • (greatest + miss) := Finset.sum_le_card_nsmul _ _ _ fun a _ => hterm a
    _ = (n - 1) * (greatest + miss) := by
        rw [Finset.card_erase_of_mem (Finset.mem_univ i), Finset.card_univ, Fintype.card_fin, nsmul_eq_mul, hn]

/-- When a search is given up, the dual variables can be lowered by the least one of the rows reached. -/
theorem State.Near.balanced (h : Near work greatest spent updates t) (hv : Valid work t) (hex : Exhausted t)
    (hwork : Between work least greatest) (hlt : Scalar.lt t.leastDual t.leastSlack = true)
    (hdual : Scalar.isFinite t.leastDual = true) (hnonneg : 0 ≤ value t.leastDual)
    (hleast : ∀ a, t.Reached a → value t.leastDual ≤ value (t.rowDual.get a)) :
    Balanced work t greatest (leeway α greatest updates)
      (fun i => if (t.rowLabel.get i).isReached then value (t.rowDual.get i) - value t.leastDual else value (t.rowDual.get i))
      (fun j => if Scalar.positive (t.slack.get j) then value (t.colDual.get j)
        else value (t.colDual.get j) + value t.leastDual) where
  row_nonneg i := by
    split
    · rename_i hi
      linarith [hleast i (isReached_iff.1 hi)]
    · exact (hv.proper.rowDual i).2
  row_le i := by
    have := h.rowDual_le i
    split <;> linarith
  col_nonneg j := by
    have := (h.colDual j).2.1
    split <;> linarith
  col_unmatched j hj := by
    rw [if_pos (hv.grown.positive_slack hex hj)]
    exact h.colDual_unmatched j hj
  feasible i j w hw hdef := by
    have hold := h.feasible i j w hw hdef
    by_cases hi : t.Reached i
    · rw [if_pos (isReached_iff.2 hi)]
      by_cases hj : Scalar.positive (t.slack.get j) = true
      · -- The row has been scanned, so the slack of the column is at most that of the edge, and the search found it too great.
        obtain ⟨hfin, hslack⟩ := h.scanned i j w hi (hex.not_mem_rowStack i) hj (hv.grown.not_mate hex hi hj) hw hdef
        have hle := (le_iff hdual hfin).1 (le_trans (le_of_lt hlt) (leastSlack_le hj))
        rw [if_pos hj]
        linarith
      · rw [if_neg hj]
        linarith
    · rw [if_neg fun h => hi (isReached_iff.1 h)]
      split <;> linarith
  matched i j hij := by
    obtain ⟨w, hw, hdef⟩ := hv.grown.mate_edge i j hij
    have hle := (hwork i j w hw hdef).2.2
    have hold := h.matched i j w hij hw
    have hiff := hv.grown.reached_iff_tight hex hij
    by_cases hi : t.Reached i
    · rw [if_pos (isReached_iff.2 hi), if_neg (Bool.eq_false_iff.1 (hiff.1 hi))]
      linarith
    · rw [if_neg fun h => hi (isReached_iff.1 h), if_pos (by_contra fun hj => hi (hiff.2 (Bool.eq_false_iff.2 hj)))]
      linarith
  label i j hij hj := by
    obtain ⟨hi, _, w, hw, hdef⟩ := hv.grown.label i j hij
    have hle := (hwork i j w hw hdef).2.2
    have hold := h.label i j w hij hw
    rw [max_eq_right (nonpos_of_not_positive (h.slack i j hij).1 hj), add_zero] at hold
    rw [if_pos (isReached_iff.2 hi), if_neg (Bool.eq_false_iff.1 hj)]
    linarith

/-- If a search is given up although there is a perfect matching, `n` least weights do not outweigh `n - 1` greatest ones, up to
the leeway. -/
theorem State.Near.abandoned_le (h : Near work greatest spent updates t) (hv : Valid work t) (hex : Exhausted t)
    (hwork : Between work least greatest) (hleeway : 0 ≤ leeway α greatest updates)
    (hlt : Scalar.lt t.leastDual t.leastSlack = true) (e : Equiv.Perm (Fin n)) (he : ∀ i, HasEdge work i (e i)) :
    n * least ≤ (n - 1) * (greatest + leeway α greatest updates) + n * leeway α greatest updates := by
  obtain ⟨r, _, hr⟩ := hv.exists_reached
  obtain ⟨a, ha, heq, hleast⟩ := hv.proper.exists_leastDual hr
  have hdual := hv.proper.rowDual a
  rw [← heq] at hdual
  have hbalanced := h.balanced hv hex hwork hlt hdual.1 hdual.2 hleast
  have hsum := hbalanced.sum_le hv.grown hleeway ha (by rw [if_pos (isReached_iff.2 ha), heq, sub_self])
  generalize (fun i => if (t.rowLabel.get i).isReached then _ else _) = row at hbalanced hsum
  generalize (fun j => if Scalar.positive (t.slack.get j) then _ else _) = col at hbalanced hsum
  have hedge : ∀ i, least ≤ row i + col (e i) + leeway α greatest updates := by
    intro i
    obtain ⟨w, hw, hdef⟩ := he i
    exact (hwork i (e i) w hw hdef).2.1.trans (hbalanced.feasible i (e i) w hw hdef)
  calc n * least ≤ ∑ i, (row i + col (e i) + leeway α greatest updates) := mul_le_sum hedge
    _ = ∑ i, row i + ∑ j, col j + n * leeway α greatest updates := sum_ends row col e _
    _ ≤ _ := by linarith

/-! ## Success -/

/-- The dual variables bound the weight of every perfect matching, up to the leeway. -/
theorem State.Near.sum_le_duals (h : Near work greatest spent updates t) {e : Equiv.Perm (Fin n)} {weight : Fin n → α}
    (hweight : ∀ i, (work.get i).get (e i) = some (weight i) ∧ Scalar.le (weight i) (weight i) = true) :
    ∑ i, value (weight i) ≤
      ∑ i, value (t.rowDual.get i) + ∑ j, value (t.colDual.get j) + n * leeway α greatest updates := by
  rw [← sum_ends (fun i => value (t.rowDual.get i)) (fun j => value (t.colDual.get j)) e]
  exact Finset.sum_le_sum fun i _ => h.feasible i (e i) (weight i) (hweight i).1 (hweight i).2

/-- The dual variables add up to at most the weight of a perfect matching that a search has found, up to the leeway. -/
theorem State.Near.duals_le_sum {u : State α n} {j : Fin n} (h : Near work greatest spent updates t) (hv : Valid work t)
    (hr : Reaching t j u) {e : Equiv.Perm (Fin n)} {weight : Fin n → α} (he : ∀ i, u.rowMate.get i = some (e i))
    (hweight : ∀ i, (work.get i).get (e i) = some (weight i)) :
    ∑ i, value (t.rowDual.get i) + ∑ j, value (t.colDual.get j) ≤
      ∑ i, value (weight i) + n * leeway α greatest updates := by
  have hle : ∑ i, (value (t.rowDual.get i) + value (t.colDual.get (e i)) + -leeway α greatest updates) ≤
      ∑ i, value (weight i) := by
    refine Finset.sum_le_sum fun i _ => ?_
    linarith [h.matched_flipped hv hr (he i) (hweight i)]
  rw [sum_ends (fun i => value (t.rowDual.get i)) (fun j => value (t.colDual.get j)) e] at hle
  linarith

/-- A perfect matching that a search has found weighs at least as much as every other one, up to the leeway. -/
theorem State.Near.sum_le {u : State α n} {j : Fin n} (h : Near work greatest spent updates t) (hv : Valid work t)
    (hr : Reaching t j u) {e e' : Equiv.Perm (Fin n)} {weight weight' : Fin n → α}
    (he : ∀ i, u.rowMate.get i = some (e i)) (hweight : ∀ i, (work.get i).get (e i) = some (weight i))
    (hweight' : ∀ i, (work.get i).get (e' i) = some (weight' i) ∧ Scalar.le (weight' i) (weight' i) = true) :
    ∑ i, value (weight' i) ≤ ∑ i, value (weight i) + 2 * (n * leeway α greatest updates) := by
  linarith [h.sum_le_duals hweight', h.duals_le_sum hv hr he hweight]

end PerfectMatching.PrimalDual
