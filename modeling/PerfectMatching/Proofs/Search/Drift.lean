import PerfectMatching.Proofs.Scalar.Exact
import PerfectMatching.Proofs.Search.Budget

/-!
# How far the numbers drift

On exact weights the dual variables bound the weight of every edge, and those at the ends of a matched edge add up to it. With
rounding both hold up to a leeway that grows by the same amount with every dual update (`Near`), as long as all numbers stay
small enough to be in range. With an exact arithmetic the leeway is zero. Main statement: `Stage.near`.
-/

namespace PerfectMatching.PrimalDual

open LawfulScalar Relation State

variable {α : Type} [Scalar α] [LawfulScalar α] {n : ℕ} {work : Table α n}

/-- How much rounding may change a number whose magnitude is at most four greatest weights. -/
def drift (α : Type) [Scalar α] [LawfulScalar α] (greatest : ℚ) : ℚ := unit α * (4 * greatest)

/-- By how much the dual variables may miss the weight of an edge after so many updates. -/
def leeway (α : Type) [Scalar α] [LawfulScalar α] (greatest : ℚ) (updates : ℕ) : ℚ :=
  2 * drift α greatest * (updates + 1)

/-- The numbers are small enough that so many updates keep them in range. -/
structure Steady (α : Type) [Scalar α] [LawfulScalar α] (greatest : ℚ) (updates : ℕ) : Prop where
  nonneg : 0 ≤ greatest
  fits : Fits α (4 * greatest)
  leeway_le : leeway α greatest updates ≤ greatest

namespace State

/-- The dual variables after so many updates, by `spent` in all, up to the leeway. -/
structure Near (work : Table α n) (greatest spent : ℚ) (updates : ℕ) (s : State α n) : Prop where
  colDual : ∀ j, Scalar.isFinite (s.colDual.get j) = true ∧ 0 ≤ value (s.colDual.get j) ∧
    value (s.colDual.get j) ≤ spent + updates * drift α greatest
  rowDual_le : ∀ i, value (s.rowDual.get i) ≤ greatest
  rowDual_unmatched : ∀ i, s.rowMate.get i = none →
    value (s.rowDual.get i) ≤ greatest - spent + updates * drift α greatest
  colDual_unmatched : ∀ j, s.colMate.get j = none → value (s.colDual.get j) = 0
  feasible : ∀ i j w, (work.get i).get j = some w → Scalar.le w w = true →
    value w ≤ value (s.rowDual.get i) + value (s.colDual.get j) + leeway α greatest updates
  matched : ∀ i j w, s.rowMate.get i = some j → (work.get i).get j = some w →
    value (s.rowDual.get i) + value (s.colDual.get j) ≤ value w + leeway α greatest updates
  slack : ∀ i j, s.colLabel.get j = some i →
    Scalar.isFinite (s.slack.get j) = true ∧ value (s.slack.get j) ≤ 4 * greatest
  label : ∀ i j w, s.colLabel.get j = some i → (work.get i).get j = some w →
    value (s.rowDual.get i) + value (s.colDual.get j) ≤
      value w + max (value (s.slack.get j)) 0 + leeway α greatest updates
  scanned : ∀ i j w, s.Reached i → i ∉ s.rowStack → Scalar.positive (s.slack.get j) = true →
    s.rowMate.get i ≠ some j → (work.get i).get j = some w → Scalar.le w w = true →
    Scalar.isFinite (s.slack.get j) = true ∧
      value (s.slack.get j) ≤
        value (s.rowDual.get i) + value (s.colDual.get j) - value w + leeway α greatest updates

end State

/-! ## Rounding errors -/

section Errors

variable {greatest : ℚ} {updates : ℕ} {x y : α}

/-- The drift is not negative. -/
theorem Steady.drift_nonneg (h : Steady α greatest updates) : 0 ≤ drift α greatest :=
  mul_nonneg unit_nonneg (by linarith [h.nonneg])

/-- A sum whose magnitude is at most four greatest weights is rounded by at most the drift. -/
theorem Steady.value_add (h : Steady α greatest updates) (hx : Scalar.isFinite x = true) (hy : Scalar.isFinite y = true)
    (hsum : |value x + value y| ≤ 4 * greatest) :
    Scalar.isFinite (x + y) = true ∧ |value (x + y) - (value x + value y)| ≤ drift α greatest :=
  value_add_of_abs_le hx hy hsum h.fits

/-- A difference whose magnitude is at most four greatest weights is rounded by at most the drift. -/
theorem Steady.value_sub (h : Steady α greatest updates) (hx : Scalar.isFinite x = true) (hy : Scalar.isFinite y = true)
    (hdiff : |value x - value y| ≤ 4 * greatest) :
    Scalar.isFinite (x - y) = true ∧ |value (x - y) - (value x - value y)| ≤ drift α greatest :=
  value_sub_of_abs_le hx hy hdiff h.fits

/-- The slack of an edge, as a scan computes it. -/
theorem Steady.value_slack (h : Steady α greatest updates) {u v w : α} (hu : Scalar.isFinite u = true)
    (hv : Scalar.isFinite v = true) (hw : Scalar.isFinite w = true) (hu0 : 0 ≤ value u) (hv0 : 0 ≤ value v)
    (hw0 : 0 ≤ value w) (huv : value u + value v ≤ 3 * greatest) (hwg : value w ≤ greatest) :
    Scalar.isFinite (u + v - w) = true ∧ value (u + v - w) ≤ 4 * greatest ∧
      |value (u + v - w) - (value u + value v - value w)| ≤ 2 * drift α greatest := by
  have hg := h.nonneg
  have hdrift : 2 * drift α greatest ≤ greatest := by
    have hle := h.leeway_le
    have hd := h.drift_nonneg
    rw [leeway] at hle
    have : 2 * drift α greatest * 1 ≤ 2 * drift α greatest * (updates + 1) :=
      mul_le_mul_of_nonneg_left (by linarith [show (0 : ℚ) ≤ updates from Nat.cast_nonneg _]) (by linarith)
    linarith
  obtain ⟨hfin, herr⟩ := h.value_add hu hv (by rw [abs_of_nonneg (by linarith)]; linarith)
  have herr' := abs_le.1 herr
  have hd := h.drift_nonneg
  have hsum0 : 0 ≤ value (u + v) := by
    rw [LawfulScalar.value_add hfin]
    exact rounded_nonneg (by linarith)
  have hsum : value (u + v) ≤ 4 * greatest := by linarith [herr'.2]
  obtain ⟨hfin', herr2⟩ := h.value_sub hfin hw (by rw [abs_le]; constructor <;> linarith)
  refine ⟨hfin', ?_, ?_⟩
  · rw [LawfulScalar.value_sub hfin']
    refine (rounded_mono (show value (u + v) - value w ≤ value (u + v) by linarith)).trans ?_
    rw [rounded_value hfin]
    exact hsum
  · have herr2' := abs_le.1 herr2
    rw [abs_le]
    constructor <;> linarith [herr'.1, herr'.2, herr2'.1, herr2'.2]

end Errors

section Invariant

variable {s t u : State α n} {least greatest spent : ℚ} {updates : ℕ} {i j : Fin n}

/-! ## Searches -/

/-- As long as a row is not matched, not much more than the greatest weight has been spent. -/
theorem State.Near.spent_le (h : Near work greatest spent updates s) (hv : Valid work s) :
    spent ≤ greatest + updates * drift α greatest := by
  obtain ⟨i, hi⟩ := hv.unmatched
  linarith [h.rowDual_unmatched i hi, (hv.proper.rowDual i).2]

/-- As long as a row is not matched, the dual variables of the columns are at most two greatest weights. -/
theorem State.Near.colDual_le (h : Near work greatest spent updates s) (hv : Valid work s)
    (hsteady : Steady α greatest updates) (j : Fin n) : value (s.colDual.get j) ≤ 2 * greatest := by
  have hle := hsteady.leeway_le
  have hd := hsteady.drift_nonneg
  rw [leeway] at hle
  linarith [(h.colDual j).2.2, h.spent_le hv]

/-- What an edge from a row offers is close to its exact slack. -/
theorem State.Near.offer (h : Near work greatest spent updates s) (hv : Valid work s) (hwork : Between work least greatest)
    (hleast : 0 ≤ least) (hsteady : Steady α greatest updates) {w : α} (hw : (work.get i).get j = some w)
    (hdef : Scalar.le w w = true) :
    Scalar.isFinite (s.rowDual.get i + s.colDual.get j - w) = true ∧
      value (s.rowDual.get i + s.colDual.get j - w) ≤ 4 * greatest ∧
      |value (s.rowDual.get i + s.colDual.get j - w) -
        (value (s.rowDual.get i) + value (s.colDual.get j) - value w)| ≤ leeway α greatest updates := by
  have hleeway : 2 * drift α greatest ≤ leeway α greatest updates := by
    have hd := hsteady.drift_nonneg
    rw [leeway]
    nlinarith [show (0 : ℚ) ≤ updates from Nat.cast_nonneg _]
  obtain ⟨hwfin, hw1, hw2⟩ := hwork i j w hw hdef
  obtain ⟨hfin, hle, herr⟩ := hsteady.value_slack (hv.proper.rowDual i).1 (h.colDual j).1 hwfin (hv.proper.rowDual i).2
    (h.colDual j).2.1 (hleast.trans hw1) (by linarith [h.rowDual_le i, h.colDual_le hv hsteady j]) hw2
  exact ⟨hfin, hle, herr.trans hleeway⟩

/-- A slack that is lowered is close to the exact slack of the edge that lowers it. -/
theorem State.Near.lowers (h : Near work greatest spent updates s) (hv : Valid work s) (hwork : Between work least greatest)
    (hleast : 0 ≤ least) (hsteady : Steady α greatest updates) {x : α} (hx : Lowers work s i j x) :
    ∃ w, (work.get i).get j = some w ∧ Scalar.isFinite x = true ∧ value x ≤ 4 * greatest ∧
      |value x - (value (s.rowDual.get i) + value (s.colDual.get j) - value w)| ≤ leeway α greatest updates := by
  obtain ⟨w, hw, rfl⟩ := hx.edge
  have hdef := (le_self_of_sub (le_self (le_of_lt hx.lt)).1).2
  exact ⟨w, hw, h.offer hv hwork hleast hsteady hw hdef⟩

/-- If no mate and no dual variable changes, only what is said of the slacks is to be shown anew. -/
theorem State.Near.of_framed (h : Near work greatest spent updates s) (hframed : Framed s t)
    (hslack : ∀ i j, t.colLabel.get j = some i →
      Scalar.isFinite (t.slack.get j) = true ∧ value (t.slack.get j) ≤ 4 * greatest)
    (hlabel : ∀ i j w, t.colLabel.get j = some i → (work.get i).get j = some w →
      value (s.rowDual.get i) + value (s.colDual.get j) ≤
        value w + max (value (t.slack.get j)) 0 + leeway α greatest updates)
    (hscanned : ∀ i j w, t.Reached i → i ∉ t.rowStack → Scalar.positive (t.slack.get j) = true →
      s.rowMate.get i ≠ some j → (work.get i).get j = some w → Scalar.le w w = true →
      Scalar.isFinite (t.slack.get j) = true ∧
        value (t.slack.get j) ≤
          value (s.rowDual.get i) + value (s.colDual.get j) - value w + leeway α greatest updates) :
    Near work greatest spent updates t := by
  obtain ⟨hrowMate, hcolMate, hrowDual, hcolDual, _, _⟩ := hframed
  constructor
  · rw [hcolDual]
    exact h.colDual
  · rw [hrowDual]
    exact h.rowDual_le
  · rw [hrowMate, hrowDual]
    exact h.rowDual_unmatched
  · rw [hcolMate, hcolDual]
    exact h.colDual_unmatched
  · rw [hrowDual, hcolDual]
    exact h.feasible
  · rw [hrowMate, hrowDual, hcolDual]
    exact h.matched
  · exact hslack
  · rw [hrowDual, hcolDual]
    exact hlabel
  · rw [hrowMate, hrowDual, hcolDual]
    exact hscanned

/-- A scan keeps the dual variables near. -/
theorem State.Near.scan (h : Near work greatest spent updates s) (hv : Valid work s) (hwork : Between work least greatest)
    (hleast : 0 ≤ least) (hsteady : Steady α greatest updates) {rows : List (Fin n)} (hrows : s.rowStack = i :: rows) :
    Near work greatest spent updates (State.scan work i { s with rowStack := rows }) := by
  have hframed : Framed s (State.scan work i { s with rowStack := rows }) := Step.framed (.scan hrows)
  have hscan := rowScanned_scan work i rows s
  generalize State.scan work i { s with rowStack := rows } = t at hscan hframed
  refine h.of_framed hframed ?slack ?label ?scanned
  case slack =>
    intro a b hab
    rcases hscan.column b with ⟨x, hx, hslack, _⟩ | ⟨_, hslack, hlabel⟩
    · obtain ⟨_, _, hfin, hle, _⟩ := h.lowers hv hwork hleast hsteady hx
      rw [hslack]
      exact ⟨hfin, hle⟩
    · rw [hslack]
      exact h.slack a b (hlabel.symm.trans hab)
  case label =>
    intro a b w hab hw
    rcases hscan.column b with ⟨x, hx, hslack, hlabel⟩ | ⟨_, hslack, hlabel⟩
    · obtain rfl := Option.some.inj (hlabel.symm.trans hab)
      obtain ⟨w', hw', _, _, herr⟩ := h.lowers hv hwork hleast hsteady hx
      obtain rfl := Option.some.inj (hw'.symm.trans hw)
      rw [hslack]
      linarith [(abs_le.1 herr).1, le_max_left (value x) 0]
    · rw [hslack]
      exact h.label a b w (hlabel.symm.trans hab) hw
  case scanned =>
    intro a b w ha hstack hpos hmate hw hdef
    rw [Reached, hscan.rowLabel_eq] at ha
    rw [hscan.rowStack_eq] at hstack
    by_cases hai : a = i
    · subst hai
      obtain ⟨hfin, _, herr⟩ := h.offer hv hwork hleast hsteady hw hdef
      obtain ⟨hbfin, hle⟩ := hscan.slack_le_offer hpos hmate hw hfin
      exact ⟨hbfin, by linarith [(abs_le.1 herr).2]⟩
    · have hmem : a ∉ s.rowStack := by
        rw [hrows, List.mem_cons, not_or]
        exact ⟨hai, hstack⟩
      obtain ⟨hbfin, hle⟩ := h.scanned a b w ha hmem (hscan.positive hpos) hmate hw hdef
      obtain ⟨hbfin', hle'⟩ := hscan.slack_le hpos hbfin
      exact ⟨hbfin', hle'.trans hle⟩

/-- A visit keeps the dual variables near. -/
theorem State.Near.visit (h : Near work greatest spent updates s) (hstep : Step work s t) {cols : List (Fin n)}
    (hvisit : Visited i j cols s t) : Near work greatest spent updates t := by
  refine h.of_framed hstep.framed ?slack ?label ?scanned
  case slack =>
    rw [hvisit.colLabel_eq, hvisit.slack_eq]
    exact h.slack
  case label =>
    rw [hvisit.colLabel_eq, hvisit.slack_eq]
    exact h.label
  case scanned =>
    intro a b w ha hstack
    obtain ⟨ha, hstack⟩ := hvisit.scanned a ha hstack
    rw [hvisit.slack_eq]
    exact h.scanned a b w ha hstack

/-- A search keeps the dual variables near. -/
theorem State.Near.of_steps (h : Near work greatest spent updates s) (hv : Valid work s)
    (hwork : Between work least greatest) (hleast : 0 ≤ least) (hsteady : Steady α greatest updates)
    (hst : ReflTransGen (Step work) s t) : Near work greatest spent updates t := by
  induction hst with
  | refl => exact h
  | tail hsteps hstep ih =>
    cases hstep with
    | scan hrows => exact ih.scan (hv.of_steps hsteps) hwork hleast hsteady hrows
    | visit hrows hcols hmate => exact ih.visit (.visit hrows hcols hmate) (visited_reach _ _ _ _)

/-! ## Rounds -/

/-- At the beginning the dual variables are exact. -/
theorem near_start (hwork : Between work least greatest) (hgreatest : 0 ≤ greatest) :
    Near work greatest 0 0 (start work) := by
  have hcol : ∀ j, (start work).colDual.get j = Scalar.zero := fun j => by simp [start, restart]
  have hd : 0 ≤ drift α greatest := mul_nonneg unit_nonneg (by linarith)
  have hleeway : 0 ≤ leeway α greatest 0 := by
    rw [leeway]
    norm_num
    exact hd
  constructor
  · intro j
    rw [hcol, value_zero]
    exact ⟨isFinite_zero, le_rfl, by simp⟩
  · intro i
    exact (rowDual_start hwork hgreatest i).2.2.1
  · intro i _
    have := (rowDual_start hwork hgreatest i).2.2.1
    simpa using this
  · intro j _
    rw [hcol, value_zero]
  · intro i j w hw hdef
    rw [hcol, value_zero]
    linarith [(rowDual_start hwork hgreatest i).2.2.2 j w hw hdef]
  · intro i j w hij
    simp [start, restart] at hij
  · intro i j hij
    simp [start, restart] at hij
  · intro i j w hij
    simp [start, restart] at hij
  · intro i j w _ hstack
    simp [start, restart] at hstack

/-- An edge that an augmentation matches is nearly tight. -/
theorem State.Near.matched_flipped (h : Near work greatest spent updates t) (hv : Valid work t) (hr : Reaching t j u)
    {a b : Fin n} {w : α} (hab : u.rowMate.get a = some b) (hw : (work.get a).get b = some w) :
    value (t.rowDual.get a) + value (t.colDual.get b) ≤ value w + leeway α greatest updates := by
  rcases hr.flipped.new_edge a b hab with hold | ⟨hlabel, hend⟩
  · exact h.matched a b w hold hw
  · have htight : Scalar.positive (t.slack.get b) = false := by
      rcases hend with rfl | ⟨c, hc⟩
      · exact hr.tight
      · exact (hv.grown.via c b hc).2
    have hold := h.label a b w hlabel hw
    rwa [max_eq_right (nonpos_of_not_positive (h.slack a b hlabel).1 htight), add_zero] at hold

/-- An augmentation keeps the dual variables near. -/
theorem State.Near.augment (h : Near work greatest spent updates t) (hv : Valid work t) (hr : Reaching t j u) :
    Near work greatest spent updates { u.reseed with colStack := [] } := by
  have hfresh := fresh_reseed u
  have hrow : ∀ a, ({ u.reseed with colStack := [] } : State α n).rowDual.get a = t.rowDual.get a := fun a => by
    rw [← hr.flipped.rowDual_eq]
    rfl
  have hcol : ∀ b, ({ u.reseed with colStack := [] } : State α n).colDual.get b = t.colDual.get b := fun b => by
    rw [← hr.flipped.colDual_eq]
    rfl
  constructor
  · intro b
    rw [hcol]
    exact h.colDual b
  · intro a
    rw [hrow]
    exact h.rowDual_le a
  · intro a ha
    rw [hrow]
    refine h.rowDual_unmatched a ?_
    by_contra hmate
    exact hr.flipped.row_matched a hmate ha
  · intro b hb
    rw [hcol]
    refine h.colDual_unmatched b ?_
    by_contra hmate
    exact hr.flipped.col_matched b hmate hb
  · intro a b w hw hdef
    rw [hrow, hcol]
    exact h.feasible a b w hw hdef
  · intro a b w hab hw
    rw [hrow, hcol]
    exact h.matched_flipped hv hr hab hw
  · intro a b hab
    exact nomatch (hfresh.colLabel_eq b).symm.trans hab
  · intro a b w hab
    exact nomatch (hfresh.colLabel_eq b).symm.trans hab
  · intro a b w ha hstack
    exact absurd (hfresh.mem_rowStack_of_reached ha) hstack

/-! ## Dual updates -/

/-- The dual variables after an update, up to the drift. -/
structure Moved (t : State α n) (amount greatest : ℚ) (t' : State α n) : Prop where
  row_reached : ∀ i, t.Reached i → |value (t'.rowDual.get i) - (value (t.rowDual.get i) - amount)| ≤ drift α greatest ∧
    value (t'.rowDual.get i) ≤ value (t.rowDual.get i)
  row_kept : ∀ i, ¬t.Reached i → t'.rowDual.get i = t.rowDual.get i
  col_tight : ∀ j, Scalar.positive (t.slack.get j) = false → Scalar.isFinite (t'.colDual.get j) = true ∧
    0 ≤ value (t'.colDual.get j) ∧
    |value (t'.colDual.get j) - (value (t.colDual.get j) + amount)| ≤ drift α greatest
  col_kept : ∀ j, Scalar.positive (t.slack.get j) = true → t'.colDual.get j = t.colDual.get j
  slack : ∀ i j, t.colLabel.get j = some i → Scalar.positive (t.slack.get j) = true →
    Scalar.isFinite (t'.slack.get j) = true ∧ value (t'.slack.get j) ≤ value (t.slack.get j) ∧
    |value (t'.slack.get j) - (value (t.slack.get j) - amount)| ≤ drift α greatest
  slack_kept : ∀ j, Scalar.positive (t.slack.get j) = false → t'.slack.get j = t.slack.get j

/-- What an update does to the dual variables and the slacks. -/
theorem State.Near.moved (h : Near work greatest spent updates t) (hv : Valid work t) (hsteady : Steady α greatest updates)
    {amount : α} (ha : Admissible t amount) : Moved t (value amount) greatest (t.update amount) := by
  have hg := hsteady.nonneg
  have hpos := ha.pos
  obtain ⟨r, hr, hreached⟩ := hv.exists_reached
  have hamount : value amount ≤ greatest := (ha.le_rowDual r hreached).trans (h.rowDual_le r)
  constructor
  · intro i hi
    rw [get_rowDual_update, if_pos (isReached_iff.2 hi)]
    have hle := ha.le_rowDual i hi
    have hUle := h.rowDual_le i
    have hfin := ha.rowDual_sub hv.proper hi
    refine ⟨(hsteady.value_sub (hv.proper.rowDual i).1 ha.finite ?_).2, ?_⟩
    · rw [abs_of_nonneg (by linarith)]
      linarith
    · rw [hfin.2, ← rounded_value (hv.proper.rowDual i).1]
      exact rounded_mono (by rw [rounded_value (hv.proper.rowDual i).1]; linarith)
  · intro i hi
    rw [get_rowDual_update, if_neg fun h => hi (isReached_iff.1 h)]
  · intro j hj
    rw [get_colDual_update, if_neg (Bool.eq_false_iff.1 hj)]
    obtain ⟨hfin, hnonneg, _⟩ := h.colDual j
    have hle := h.colDual_le hv hsteady j
    obtain ⟨hsum, herr⟩ := hsteady.value_add hfin ha.finite (by rw [abs_of_nonneg (by linarith)]; linarith)
    refine ⟨hsum, ?_, herr⟩
    rw [LawfulScalar.value_add hsum]
    exact rounded_nonneg (by linarith)
  · intro j hj
    rw [get_colDual_update, if_pos hj]
  · intro i j hij hj
    obtain ⟨hfin, hle⟩ := h.slack i j hij
    have hle' := ha.le_slack j hj hfin
    have hsub := ha.slack_sub hj hfin
    rw [get_slack_update, hj, hij, Option.isSome_some, Bool.and_self, if_pos rfl]
    refine ⟨hsub.1, ?_, (hsteady.value_sub hfin ha.finite ?_).2⟩
    · rw [hsub.2, ← rounded_value hfin]
      exact rounded_mono (by rw [rounded_value hfin]; linarith)
    · rw [abs_of_nonneg (by linarith)]
      linarith
  · intro j hj
    exact get_slack_update_of_tight amount hj

/-- One more update adds twice the drift to the leeway. -/
theorem leeway_succ (greatest : ℚ) (updates : ℕ) :
    leeway α greatest (updates + 1) = leeway α greatest updates + 2 * drift α greatest := by
  rw [leeway, leeway]
  push_cast
  ring

/-- The numbers that are small enough for one more update are small enough for those so far. -/
theorem Steady.of_succ (h : Steady α greatest (updates + 1)) : Steady α greatest updates := by
  refine ⟨h.nonneg, h.fits, ?_⟩
  have hle := h.leeway_le
  have hd := h.drift_nonneg
  rw [leeway_succ] at hle
  linarith

section Update

variable {amount w : α} (h : Near work greatest spent updates t) (hv : Valid work t)
  (hm : Moved t (value amount) greatest u)

include h hv hm

/-- After an update the dual variables still bound the weight of every edge. -/
theorem State.Near.feasible_moved (hex : Exhausted t) (ha : Admissible t amount) (hd : 0 ≤ drift α greatest)
    (hw : (work.get i).get j = some w) (hdef : Scalar.le w w = true) :
    value w ≤ value (u.rowDual.get i) + value (u.colDual.get j) + leeway α greatest (updates + 1) := by
  have hold := h.feasible i j w hw hdef
  have hpos := ha.pos
  rw [leeway_succ]
  by_cases hi : t.Reached i
  · have hrow := (abs_le.1 (hm.row_reached i hi).1).1
    cases hj : Scalar.positive (t.slack.get j) with
    | true =>
      -- The row has been scanned, so the slack of the column, and with it the amount, is at most that of the edge.
      obtain ⟨hfin, hslack⟩ := h.scanned i j w hi (hex.not_mem_rowStack i) hj (hv.grown.not_mate hex hi hj) hw hdef
      rw [hm.col_kept j hj]
      linarith [ha.le_slack j hj hfin]
    | false => linarith [(abs_le.1 (hm.col_tight j hj).2.2).1]
  · rw [hm.row_kept i hi]
    cases hj : Scalar.positive (t.slack.get j) with
    | true =>
      rw [hm.col_kept j hj]
      linarith
    | false => linarith [(abs_le.1 (hm.col_tight j hj).2.2).1]

/-- After an update the dual variables at the ends of a matched edge still add up to its weight. -/
theorem State.Near.matched_moved (hex : Exhausted t) (hd : 0 ≤ drift α greatest) (hij : t.rowMate.get i = some j)
    (hw : (work.get i).get j = some w) :
    value (u.rowDual.get i) + value (u.colDual.get j) ≤ value w + leeway α greatest (updates + 1) := by
  have hold := h.matched i j w hij hw
  have hiff := hv.grown.reached_iff_tight hex hij
  rw [leeway_succ]
  cases hj : Scalar.positive (t.slack.get j) with
  | true =>
    have hi : ¬t.Reached i := fun hi => Bool.false_ne_true ((hiff.1 hi).symm.trans hj)
    rw [hm.row_kept i hi, hm.col_kept j hj]
    linarith
  | false =>
    have hrow := (abs_le.1 (hm.row_reached i (hiff.2 hj)).1).2
    have hcol := (abs_le.1 (hm.col_tight j hj).2.2).2
    linarith

/-- After an update the slack of a column still bounds what the edge that lowered it last lacks. -/
theorem State.Near.label_moved (hij : t.colLabel.get j = some i) (hw : (work.get i).get j = some w) :
    value (u.rowDual.get i) + value (u.colDual.get j) ≤
      value w + max (value (u.slack.get j)) 0 + leeway α greatest (updates + 1) := by
  have hold := h.label i j w hij hw
  have hrow := (abs_le.1 (hm.row_reached i (hv.grown.label i j hij).1).1).2
  rw [leeway_succ]
  cases hj : Scalar.positive (t.slack.get j) with
  | true =>
    obtain ⟨_, _, herr⟩ := hm.slack i j hij hj
    have hslack := (positive_iff (h.slack i j hij).1).1 hj
    rw [max_eq_left hslack.le] at hold
    rw [hm.col_kept j hj]
    linarith [(abs_le.1 herr).1, le_max_left (value (u.slack.get j)) 0]
  | false =>
    rw [hm.slack_kept j hj]
    linarith [(abs_le.1 (hm.col_tight j hj).2.2).2]

/-- After an update the slack of a column is still at most that of every edge from a row reached. -/
theorem State.Near.scanned_moved (hex : Exhausted t) (hi : t.Reached i) (hpos : Scalar.positive (u.slack.get j) = true)
    (hmate : t.rowMate.get i ≠ some j) (hw : (work.get i).get j = some w) (hdef : Scalar.le w w = true) :
    Scalar.isFinite (u.slack.get j) = true ∧
      value (u.slack.get j) ≤
        value (u.rowDual.get i) + value (u.colDual.get j) - value w + leeway α greatest (updates + 1) := by
  have hj : Scalar.positive (t.slack.get j) = true := by
    by_contra hold
    rw [hm.slack_kept j (Bool.eq_false_iff.2 hold)] at hpos
    exact hold hpos
  obtain ⟨hfin, hslack⟩ := h.scanned i j w hi (hex.not_mem_rowStack i) hj hmate hw hdef
  cases hlabel : t.colLabel.get j with
  | none =>
    rw [hv.grown.unlabelled j hlabel, isFinite_infinity] at hfin
    cases hfin
  | some a =>
    obtain ⟨hfin', _, herr⟩ := hm.slack a j hlabel hj
    refine ⟨hfin', ?_⟩
    rw [hm.col_kept j hj, leeway_succ]
    linarith [(abs_le.1 herr).2, (abs_le.1 (hm.row_reached i hi).1).1]

end Update

/-- An update keeps the dual variables near. -/
theorem State.Near.update (h : Near work greatest spent updates t) (hv : Valid work t) (hex : Exhausted t)
    (hsteady : Steady α greatest (updates + 1)) {amount : α} (ha : Admissible t amount) :
    Near work greatest (spent + value amount) (updates + 1) (t.update amount) := by
  have hm := h.moved hv hsteady.of_succ ha
  have hd := hsteady.drift_nonneg
  have hpos := ha.pos
  constructor
  · intro j
    obtain ⟨hfin, hnonneg, hle⟩ := h.colDual j
    push_cast
    cases hj : Scalar.positive (t.slack.get j) with
    | true =>
      rw [hm.col_kept j hj]
      exact ⟨hfin, hnonneg, by linarith⟩
    | false =>
      obtain ⟨hfin', hnonneg', herr⟩ := hm.col_tight j hj
      exact ⟨hfin', hnonneg', by linarith [(abs_le.1 herr).2]⟩
  · intro i
    by_cases hi : t.Reached i
    · exact (hm.row_reached i hi).2.trans (h.rowDual_le i)
    · rw [hm.row_kept i hi]
      exact h.rowDual_le i
  · intro i hi
    have hreached : t.Reached i := by simp [Reached, (hv.grown.root_iff i).2 hi]
    push_cast
    linarith [(abs_le.1 (hm.row_reached i hreached).1).2, h.rowDual_unmatched i hi]
  · intro j hj
    rw [hm.col_kept j (hv.grown.positive_slack hex hj)]
    exact h.colDual_unmatched j hj
  · intro i j w hw hdef
    exact h.feasible_moved hv hm hex ha hd hw hdef
  · intro i j w hij hw
    exact h.matched_moved hv hm hex hd hij hw
  · intro i j hij
    cases hj : Scalar.positive (t.slack.get j) with
    | true =>
      obtain ⟨hfin, hle, _⟩ := hm.slack i j hij hj
      exact ⟨hfin, hle.trans (h.slack i j hij).2⟩
    | false =>
      rw [hm.slack_kept j hj]
      exact h.slack i j hij
  · intro i j w hij hw
    exact h.label_moved hv hm hij hw
  · intro i j w hi _ hj hmate hw hdef
    exact h.scanned_moved hv hm hex hi hj hmate hw hdef

/-- The numbers that are small enough for some updates are small enough for fewer. -/
theorem Steady.of_le {fewer : ℕ} (h : Steady α greatest updates) (hle : fewer ≤ updates) : Steady α greatest fewer := by
  induction hle with
  | refl => exact h
  | step _ ih => exact ih h.of_succ

/-- At the beginning of every round the dual variables are near. -/
theorem Stage.near {effort : Effort} (hwork : Between work least greatest) (hleast : 0 ≤ least) (hn : 0 < n)
    (hsteady : Steady α greatest effort.updates) (h : Stage work s effort) :
    ∃ spent, Near work greatest spent effort.updates s := by
  refine Stage.induction
    (motive := fun s effort => Steady α greatest effort.updates → ∃ spent, Near work greatest spent effort.updates s)
    hwork hsteady.nonneg hn ?start ?augment ?update h hsteady
  case start => exact fun hsteady => ⟨0, near_start hwork hsteady.nonneg⟩
  case augment =>
    intro s t u j effort _ hv hst hr _ ih hsteady
    obtain ⟨spent, hnear⟩ := ih hsteady
    exact ⟨spent, (hnear.of_steps hv hwork hleast hsteady hst).augment (hv.of_steps hst) hr⟩
  case update =>
    intro s t effort _ hv hst hex ha _ ih hsteady
    obtain ⟨spent, hnear⟩ := ih hsteady.of_succ
    exact ⟨_, (hnear.of_steps hv hwork hleast hsteady.of_succ hst).update (hv.of_steps hst) hex hsteady ha⟩

/-- Wherever a search comes, the dual variables are near. -/
theorem Stage.near_of_steps {effort : Effort} (hwork : Between work least greatest) (hleast : 0 ≤ least) (hn : 0 < n)
    (hsteady : Steady α greatest effort.updates) (h : Stage work s effort) (hst : ReflTransGen (Step work) s t) :
    ∃ spent, Near work greatest spent effort.updates t := by
  obtain ⟨spent, hnear⟩ := h.near hwork hleast hn hsteady
  exact ⟨spent, hnear.of_steps (h.valid hwork hsteady.nonneg hn) hwork hleast hsteady hst⟩

end Invariant

/-! ## Exact numbers -/

/-- Numbers that are not rounded do not drift. -/
theorem drift_exact (greatest : ℚ) : drift Exact greatest = 0 := by
  have hunit : unit Exact = 0 := rfl
  rw [drift, hunit, zero_mul]

/-- Numbers that are not rounded need no leeway. -/
theorem leeway_exact (greatest : ℚ) (updates : ℕ) : leeway Exact greatest updates = 0 := by
  rw [leeway, drift_exact, mul_zero, zero_mul]

/-- Exact numbers of any size are steady. -/
theorem steady_exact {greatest : ℚ} (hgreatest : 0 ≤ greatest) (updates : ℕ) : Steady Exact greatest updates :=
  ⟨hgreatest, trivial, by rw [leeway_exact]; exact hgreatest⟩

/-- On exact weights no dual variable exceeds the greatest weight as long as a row is not matched. -/
theorem State.Near.colDual_le_exact {work : Table Exact n} {s : State Exact n} {greatest spent : ℚ} {updates : ℕ}
    (h : Near work greatest spent updates s) (hv : Valid work s) (j : Fin n) : value (s.colDual.get j) ≤ greatest := by
  have hle := (h.colDual j).2.2
  have hspent := h.spent_le hv
  rw [drift_exact] at hle hspent
  linarith

end PerfectMatching.PrimalDual
