import Mathlib.Logic.Relation
import PerfectMatching.Proofs.Search.Scan

/-!
# The steps of a search

A search scans rows and visits matched columns until it visits a column that is not matched or nothing is left to do. Each
step lowers what is pending by one, so the bound on the number of steps is never what ends a search. Main statements: more steps
than are pending change nothing (`searchFor_of_pending_le`), and where a search ends (`exists_outcome`).
-/

namespace PerfectMatching.PrimalDual.State

variable {α : Type} [Scalar α] {n : ℕ} {work : Table α n} {s t : State α n} {i j : Fin n}

/-- One step of a search: it scans the next row or, if there is none, visits the next column, which is matched. -/
inductive Step (work : Table α n) : State α n → State α n → Prop where
  | scan {s : State α n} {i : Fin n} {rows : List (Fin n)} :
      s.rowStack = i :: rows → Step work s (scan work i { s with rowStack := rows })
  | visit {s : State α n} {i j : Fin n} {cols : List (Fin n)} :
      s.rowStack = [] → s.colStack = j :: cols → s.colMate.get j = some i →
        Step work s (reach { s with colStack := cols } i j)

/-- Where a search ends: at a column that is not matched, which is taken off the stack, or with nothing left to do. -/
inductive Outcome (s : State α n) : Option (Fin n) × State α n → Prop where
  | found {j : Fin n} {cols : List (Fin n)} : s.rowStack = [] → s.colStack = j :: cols → s.colMate.get j = none →
      Outcome s (some j, { s with colStack := cols })
  | exhausted : s.rowStack = [] → s.colStack = [] → Outcome s (none, s)

/-! ## What is pending -/

/-- Scanning an edge keeps the number of columns that are on the stack or not tight. -/
theorem length_colStack_scanEdge (work : Table α n) (i : Fin n) (s : State α n) (j : Fin n) :
    (scanEdge work i s j).colStack.length + (scanEdge work i s j).slack.countP Scalar.positive =
      s.colStack.length + s.slack.countP Scalar.positive := by
  by_cases h : ∃ x, Lowers work s i j x
  · obtain ⟨x, hx⟩ := h
    rw [scanEdge_of_lowers hx]
    have hpos : Scalar.positive s.slack[j.val] = true := hx.positive
    have hcount : 0 < s.slack.countP Scalar.positive := Vector.countP_pos_iff.2 ⟨_, Vector.getElem_mem j.isLt, hpos⟩
    rw [Vector.countP_set, if_pos hpos]
    cases hnew : Scalar.positive x
    · simp only [Bool.false_eq_true, if_false, List.length_cons]
      omega
    · simp only [if_true]
      omega
  · rw [scanEdge_of_not_lowers (not_exists.1 h)]

/-- Scanning a row keeps the number of columns that are on the stack or not tight. -/
theorem length_colStack_scan (work : Table α n) (i : Fin n) (s : State α n) :
    (scan work i s).colStack.length + (scan work i s).slack.countP Scalar.positive =
      s.colStack.length + s.slack.countP Scalar.positive := by
  unfold scan
  generalize List.finRange n = columns
  induction columns generalizing s with
  | nil => rfl
  | cons j columns ih => exact (ih _).trans (length_colStack_scanEdge work i s j)

/-- A scan uses up one of the pending steps. -/
theorem pending_scan {rows : List (Fin n)} (h : s.rowStack = i :: rows) :
    (scan work i { s with rowStack := rows }).pending + 1 = s.pending := by
  have hscan := rowScanned_scan work i rows s
  have hlength := length_colStack_scan work i { s with rowStack := rows }
  simp only at hlength
  simp only [pending, hscan.rowStack_eq, hscan.rowLabel_eq, h, List.length_cons]
  omega

/-- A visit uses up one of the pending steps. -/
theorem pending_reach {cols : List (Fin n)} (h : s.colStack = j :: cols) :
    (reach { s with colStack := cols } i j).pending + 1 = s.pending := by
  unfold reach
  split
  · simp only [pending, h, List.length_cons]
    omega
  · rename_i hreached
    simp only at hreached
    have hnew : (!s.rowLabel[i.val].isReached) = true := by
      rw [Bool.not_eq_true']
      exact Bool.eq_false_iff.2 hreached
    have hcount : 0 < s.rowLabel.countP fun l => !l.isReached :=
      Vector.countP_pos_iff.2 ⟨_, Vector.getElem_mem i.isLt, hnew⟩
    simp only [pending, h, List.length_cons]
    rw [Vector.countP_set, if_pos hnew, if_neg (by simp [Label.isReached])]
    omega

/-- A step uses up one of the pending steps. -/
theorem Step.pending_eq (h : Step work s t) : t.pending + 1 = s.pending := by
  cases h with
  | scan h => exact pending_scan h
  | visit _ h _ => exact pending_reach h

/-! ## Searching -/

/-- From any state a search ends or makes a step. -/
theorem outcome_or_step (work : Table α n) (s : State α n) :
    (∃ r, Outcome s r ∧ ∀ steps, searchFor work (steps + 1) s = r) ∨
      ∃ t, Step work s t ∧ ∀ steps, searchFor work (steps + 1) s = searchFor work steps t := by
  cases hrows : s.rowStack with
  | cons i rows =>
    refine Or.inr ⟨_, .scan hrows, fun steps => ?_⟩
    rw [searchFor, hrows]
  | nil =>
    cases hcols : s.colStack with
    | nil =>
      refine Or.inl ⟨_, .exhausted hrows hcols, fun steps => ?_⟩
      rw [searchFor, hrows, hcols]
    | cons j cols =>
      cases hmate : s.colMate.get j with
      | none =>
        refine Or.inl ⟨_, .found hrows hcols hmate, fun steps => ?_⟩
        rw [searchFor, hrows, hcols]
        simp only [hmate]
      | some i =>
        refine Or.inr ⟨_, .visit hrows hcols hmate, fun steps => ?_⟩
        rw [searchFor, hrows, hcols]
        simp only [hmate]

/-- With nothing pending, a search has nothing left to do. -/
theorem stacks_of_pending_eq_zero (h : s.pending = 0) : s.rowStack = [] ∧ s.colStack = [] := by
  simp only [pending] at h
  exact ⟨List.length_eq_zero_iff.1 (by omega), List.length_eq_zero_iff.1 (by omega)⟩

/-- With nothing left to do, a search takes no step. -/
theorem searchFor_of_stacks (work : Table α n) (h : s.rowStack = [] ∧ s.colStack = []) (steps : ℕ) :
    searchFor work steps s = (none, s) := by
  cases steps with
  | zero => rfl
  | succ steps => rw [searchFor, h.1, h.2]

/-- A search that may take as many steps as are pending ends where the steps lead to. -/
theorem exists_outcome_of_pending_le (work : Table α n) {steps : ℕ} (h : s.pending ≤ steps) :
    ∃ t, Relation.ReflTransGen (Step work) s t ∧ Outcome t (searchFor work steps s) := by
  induction steps generalizing s with
  | zero =>
    have hstacks := stacks_of_pending_eq_zero (Nat.le_zero.1 h)
    exact ⟨s, .refl, .exhausted hstacks.1 hstacks.2⟩
  | succ steps ih =>
    rcases outcome_or_step work s with ⟨r, hr, heq⟩ | ⟨t, hstep, heq⟩
    · rw [heq]
      exact ⟨s, .refl, hr⟩
    · have hpending := hstep.pending_eq
      obtain ⟨u, hu, hout⟩ := ih (s := t) (by omega)
      rw [heq]
      exact ⟨u, .head hstep hu, hout⟩

/-- Where a search ends. -/
theorem exists_outcome (work : Table α n) (s : State α n) :
    ∃ t, Relation.ReflTransGen (Step work) s t ∧ Outcome t (search work s) :=
  exists_outcome_of_pending_le work le_rfl

/-- More steps than are pending change nothing. -/
theorem searchFor_of_pending_le (work : Table α n) {steps : ℕ} (h : s.pending ≤ steps) :
    searchFor work steps s = search work s := by
  unfold search
  generalize hp : s.pending = p at h
  induction p generalizing s steps with
  | zero =>
    have hstacks := stacks_of_pending_eq_zero hp
    rw [searchFor_of_stacks work hstacks, searchFor_of_stacks work hstacks]
  | succ p ih =>
    obtain ⟨k, rfl⟩ := Nat.exists_eq_add_of_le' (Nat.lt_of_lt_of_le p.succ_pos h)
    rcases outcome_or_step work s with ⟨r, _, heq⟩ | ⟨t, hstep, heq⟩
    · rw [heq, heq]
    · have hpending := hstep.pending_eq
      rw [heq, heq]
      exact ih (by omega) (by omega)

end PerfectMatching.PrimalDual.State
