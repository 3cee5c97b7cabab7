import Mathlib.Data.Fintype.EquivFin
import PerfectMatching.Proofs.Search.Budget

/-!
# Tables without a forbidden edge

If there is an edge between every row and every column, a search is never given up, whatever is rounded. A row that has been
scanned has offered its edge to a column that is not matched, whose dual variable is still zero; so the slack of such a column
is at most the dual variable of the row (`Supplied`), and the least slack at most the least dual variable. Main
statement: `Stage.not_abandoned`.
-/

namespace PerfectMatching.PrimalDual

open LawfulScalar Relation State

variable {α : Type} [Scalar α] [LawfulScalar α] {n : ℕ} {work : Table α n} {s t u : State α n} {least greatest : ℚ}
  {i j : Fin n}

/-- Every row that has been scanned supplies the columns that are not matched: their slacks are at most its dual variable. -/
structure State.Supplied (s : State α n) : Prop where
  colDual : ∀ j, s.colMate.get j = none → Scalar.isFinite (s.colDual.get j) = true ∧ value (s.colDual.get j) = 0
  slack : ∀ i j, s.Reached i → i ∉ s.rowStack → s.colMate.get j = none → Scalar.positive (s.slack.get j) = true →
    Scalar.isFinite (s.slack.get j) = true ∧ value (s.slack.get j) ≤ value (s.rowDual.get i)

/-- What a row offers to a column whose dual variable is zero is at most the dual variable of the row. -/
theorem offer_le {x v w : α} (hx : Scalar.isFinite x = true) (hx0 : 0 ≤ value x) (hv : Scalar.isFinite v = true)
    (hv0 : value v = 0) (hw : Scalar.isFinite w = true) (hw0 : 0 ≤ value w) :
    Scalar.isFinite (x + v - w) = true ∧ value (x + v - w) ≤ value x := by
  have hsum : Scalar.isFinite (x + v) = true := by
    rw [isFinite_add hx hv, hv0, add_zero]
    exact fits_value hx
  have hval : value (x + v) = value x := by
    rw [value_add hsum, hv0, add_zero, rounded_value hx]
  have hfin : Scalar.isFinite (x + v - w) = true := by
    rw [isFinite_sub hsum hw, hval]
    rcases le_total (value x) (value w) with hle | hle
    · refine fits_of_abs_le ?_ (fits_value hw)
      rw [abs_sub_comm, abs_of_nonneg (sub_nonneg.2 hle), abs_of_nonneg hw0]
      linarith
    · refine fits_of_abs_le ?_ (fits_value hx)
      rw [abs_of_nonneg (sub_nonneg.2 hle), abs_of_nonneg hx0]
      linarith
  refine ⟨hfin, ?_⟩
  rw [value_sub hfin, hval, ← rounded_value hx]
  exact rounded_mono (by rw [rounded_value hx]; linarith)

/-! ## Searches -/

/-- A scan keeps the columns supplied. -/
theorem State.Supplied.scan (h : Supplied s) (hv : Valid work s) (hwork : Between work least greatest) (hleast : 0 ≤ least)
    (hall : ∀ i j, HasEdge work i j) {rows : List (Fin n)} (hrows : s.rowStack = i :: rows) :
    Supplied (State.scan work i { s with rowStack := rows }) := by
  have hscan := rowScanned_scan work i rows s
  generalize State.scan work i { s with rowStack := rows } = t at hscan
  constructor
  · rw [hscan.colMate_eq, hscan.colDual_eq]
    exact h.colDual
  · intro a b ha hstack hb hpos
    rw [Reached, hscan.rowLabel_eq] at ha
    rw [hscan.rowStack_eq] at hstack
    rw [hscan.colMate_eq] at hb
    rw [hscan.rowDual_eq]
    by_cases hai : a = i
    · subst hai
      obtain ⟨w, hw, hdef⟩ := hall a b
      obtain ⟨hwfin, hw1, _⟩ := hwork a b w hw hdef
      obtain ⟨hrow, hrow0⟩ := hv.proper.rowDual a
      obtain ⟨hcol, hcol0⟩ := h.colDual b hb
      obtain ⟨hoffer, hoffer_le⟩ := offer_le hrow hrow0 hcol hcol0 hwfin (hleast.trans hw1)
      have hmate : s.rowMate.get a ≠ some b := by
        intro hab
        rw [(hv.grown.agree a b).1 hab] at hb
        cases hb
      obtain ⟨hfin, hle⟩ := hscan.slack_le_offer hpos hmate hw hoffer
      exact ⟨hfin, hle.trans hoffer_le⟩
    · have hmem : a ∉ s.rowStack := by
        rw [hrows, List.mem_cons, not_or]
        exact ⟨hai, hstack⟩
      obtain ⟨hfin, hle⟩ := h.slack a b ha hmem hb (hscan.positive hpos)
      obtain ⟨hfin', hle'⟩ := hscan.slack_le hpos hfin
      exact ⟨hfin', hle'.trans hle⟩

/-- A search keeps the columns supplied. -/
theorem State.Supplied.of_steps (h : Supplied s) (hv : Valid work s) (hwork : Between work least greatest) (hleast : 0 ≤ least)
    (hall : ∀ i j, HasEdge work i j) (hst : ReflTransGen (Step work) s t) : Supplied t := by
  induction hst with
  | refl => exact h
  | @tail s' t' hsteps hstep ih =>
    cases hstep with
    | scan hrows => exact ih.scan (hv.of_steps hsteps) hwork hleast hall hrows
    | @visit i j cols _ _ _ =>
      have hvisit := visited_reach s' i j cols
      constructor
      · rw [hvisit.colMate_eq, hvisit.colDual_eq]
        exact ih.colDual
      · intro a b ha hstack
        obtain ⟨ha, hstack⟩ := hvisit.scanned a ha hstack
        rw [hvisit.colMate_eq, hvisit.slack_eq, hvisit.rowDual_eq]
        exact ih.slack a b ha hstack

/-! ## Rounds -/

/-- Before a row has been scanned, nothing is asked of the slacks. -/
theorem State.Fresh.supplied (h : Fresh s)
    (hcol : ∀ j, s.colMate.get j = none → Scalar.isFinite (s.colDual.get j) = true ∧ value (s.colDual.get j) = 0) :
    Supplied s := by
  exact ⟨hcol, fun i j hi hstack => absurd (h.mem_rowStack_of_reached hi) hstack⟩

/-- A dual update keeps the columns supplied. -/
theorem State.Supplied.update (h : Supplied t) (hv : Valid work t) (hex : Exhausted t) {amount : α} (ha : Admissible t amount) :
    Supplied (t.update amount) := by
  constructor
  · intro j hj
    rw [get_colDual_update, if_pos (hv.grown.positive_slack hex hj)]
    exact h.colDual j hj
  · intro i j hi _ hj hpos
    have hold := hv.grown.positive_slack hex hj
    obtain ⟨hfin, hle⟩ := h.slack i j hi (hex.not_mem_rowStack i) hj hold
    have hlabel : (t.colLabel.get j).isSome = true := by
      rw [Option.isSome_iff_ne_none]
      intro hnone
      rw [hv.grown.unlabelled j hnone, isFinite_infinity] at hfin
      exact nomatch hfin
    obtain ⟨hslackfin, hslack⟩ := ha.slack_sub hold hfin
    have hreached : t.Reached i := hi
    obtain ⟨_, hrow⟩ := ha.rowDual_sub hv.proper hreached
    rw [get_slack_update, hold, hlabel, Bool.and_self, if_pos rfl, get_rowDual_update, if_pos (isReached_iff.2 hreached),
      hslack, hrow]
    exact ⟨hslackfin, rounded_mono (by linarith)⟩

/-- At the beginning of every round the columns are supplied. -/
theorem Stage.supplied {effort : Effort} (hwork : Between work least greatest) (hleast : 0 ≤ least) (hgreatest : 0 ≤ greatest)
    (hn : 0 < n) (hall : ∀ i j, HasEdge work i j) (h : Stage work s effort) : Supplied s := by
  refine Stage.induction (motive := fun s _ => Supplied s) hwork hgreatest hn ?start ?augment ?update h
  case start =>
    refine (fresh_start work).supplied fun j _ => ?_
    have hcol : (State.start work).colDual.get j = Scalar.zero := by simp [State.start, restart]
    rw [hcol]
    exact ⟨isFinite_zero, value_zero⟩
  case augment =>
    intro s t u j effort hstage hv hst hr _ ih
    have ht := ih.of_steps hv hwork hleast hall hst
    refine (fresh_reseed u).supplied fun b hb => ?_
    have hnone : t.colMate.get b = none := by
      by_contra hmate
      exact hr.flipped.col_matched b hmate hb
    have hcol := ht.colDual b hnone
    rw [← hr.flipped.colDual_eq] at hcol
    exact hcol
  case update =>
    intro s t effort hstage hv hst hex ha _ ih
    exact (ih.of_steps hv hwork hleast hall hst).update (hv.of_steps hst) hex ha

omit [Scalar α] [LawfulScalar α] in
/-- If a row is left, so is a column. -/
theorem State.MatesAgree.exists_unmatched (h : s.MatesAgree) (hi : s.rowMate.get i = none) : ∃ j, s.colMate.get j = none := by
  by_contra hall
  rw [not_exists] at hall
  choose mate hmate using fun j => Option.ne_none_iff_exists'.1 (hall j)
  have hinj : Function.Injective mate := by
    intro j k heq
    have hj := (h (mate j) j).2 (hmate j)
    rw [heq, (h (mate k) k).2 (hmate k)] at hj
    exact (Option.some.inj hj).symm
  obtain ⟨j, rfl⟩ := Finite.injective_iff_surjective.1 hinj i
  rw [(h (mate j) j).2 (hmate j)] at hi
  exact nomatch hi

/-- If there is an edge between every row and every column, no search is given up. -/
theorem Stage.not_abandoned {effort : Effort} (hwork : Between work least greatest) (hleast : 0 ≤ least)
    (hgreatest : 0 ≤ greatest) (hn : 0 < n) (hall : ∀ i j, HasEdge work i j) (h : Stage work s effort)
    (hst : ReflTransGen (Step work) s t) (hex : Exhausted t) : Scalar.lt t.leastDual t.leastSlack = false := by
  have hs := h.valid hwork hgreatest hn
  have hv := hs.of_steps hst
  have hsupplied := (h.supplied hwork hleast hgreatest hn hall).of_steps hs hwork hleast hall hst
  obtain ⟨r, hr, hreached⟩ := hv.exists_reached
  obtain ⟨a, ha, heq, _⟩ := hv.proper.exists_leastDual hreached
  obtain ⟨b, hb⟩ := hv.grown.agree.exists_unmatched hr
  have hpos := hv.grown.positive_slack hex hb
  obtain ⟨hfin, hle⟩ := hsupplied.slack a b ha (hex.not_mem_rowStack a) hb hpos
  have hslack : Scalar.le t.leastSlack t.leastDual = true := by
    rw [heq]
    exact le_trans (leastSlack_le hpos) ((le_iff hfin (hv.proper.rowDual a).1).2 hle)
  rw [← Bool.not_eq_true, lt_iff, hslack]
  exact fun h => nomatch h.2

end PerfectMatching.PrimalDual
