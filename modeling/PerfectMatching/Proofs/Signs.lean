import PerfectMatching.Proofs.Binary64.Opposite
import PerfectMatching.Proofs.Certified
import PerfectMatching.Proofs.RangeCheck

/-!
# The signs of the numbers

The slack of a single edge may be rounded below zero, and the sum of two dual variables may be infinite. All the same, on finite
binary64 weights the dual variables of the rows stay finite, not negative and at most the greatest weights of their rows, those of the
columns are never negative, if possibly infinite, and no slack is ever undefined (`State.WellSigned`). This is because an update is made
by a finite amount that is at most every dual variable it is taken from, and is taken from no slack that is smaller or infinite. It holds at
every state that a search passes (`Passed.wellSigned`), so no certificate is refused for a negative dual variable
(`PrimalDual.solve_wellSigned`).
-/

namespace PerfectMatching.PrimalDual

open LawfulScalar Relation State

/-! ## The states on the way -/

/-- The states that a search passes: those between the steps in which the trees grow and between the edges of a scan, those between the
pairs of an augmentation, and those with new trees. -/
inductive Passed {α : Type} [Scalar α] {n : ℕ} (work : Table α n) : State α n → Prop where
  | grown {s t : State α n} {effort : Effort} : Stage work s effort → ReflTransGen (Step work) s t → Passed work t
  | scanning {s t : State α n} {effort : Effort} {i : Fin n} {rows columns : List (Fin n)} : Stage work s effort →
      ReflTransGen (Step work) s t → t.rowStack = i :: rows → columns <+: List.finRange n →
      Passed work (columns.foldl (scanEdge work i) { t with rowStack := rows })
  | flipping {s t : State α n} {effort : Effort} {j : Fin n} (pairs : ℕ) : Stage work s effort →
      s.search work = (some j, t) → Passed work (flipFrom pairs none j t).state
  | reseeded {s t u : State α n} {effort : Effort} {j : Fin n} {events : List (Event α)} : Stage work s effort →
      s.search work = (some j, t) → t.flip j = ⟨u, none, events⟩ → Passed work u.reseed

/-- The stable points of a search are on its way. -/
theorem StablePoint.passed {α : Type} [Scalar α] [LawfulScalar α] {n : ℕ} {work : Table α n} {t : State α n}
    (h : StablePoint work t) : Passed work t := by
  cases h with
  | searched hstage hsearch => exact .grown hstage (exhausted_of_search hsearch).1
  | augmented hstage hsearch hflip => exact .reseeded hstage hsearch hflip

variable {n : ℕ} {work : Table Float n} {s t u : State Float n} {least greatest : ℚ}

/-! ## What is maintained -/

/-- No number has a wrong sign or is undefined: the dual variables of the rows are finite, not negative and at most the greatest weights
of their rows, those of the columns are not negative, and no slack is undefined. -/
structure State.WellSigned (work : Table Float n) (s : State Float n) : Prop where
  rowDual : ∀ i, (s.rowDual.get i).isFinite = true ∧ Scalar.le Scalar.zero (s.rowDual.get i) = true ∧
    Scalar.le (s.rowDual.get i) (State.greatest (work.get i)) = true
  colDual : ∀ j, Scalar.le Scalar.zero (s.colDual.get j) = true
  slack : ∀ j, (s.slack.get j).isNaN = false

/-- The signs are those of the dual variables and the slacks, whatever the mates, the labels and the stacks are. -/
theorem State.WellSigned.of_eq (h : s.WellSigned work) (hrow : t.rowDual = s.rowDual) (hcol : t.colDual = s.colDual)
    (hslack : t.slack = s.slack) : t.WellSigned work := by
  refine ⟨?_, ?_, ?_⟩
  · rw [hrow]
    exact h.rowDual
  · rw [hcol]
    exact h.colDual
  · rw [hslack]
    exact h.slack

/-- A slack that is computed is a number: the sum of the dual variables is not minus infinity, and the weight is finite. -/
theorem State.WellSigned.isNaN_offer (h : s.WellSigned work) {i j : Fin n} {x : Float} (hx : x.isFinite = true) :
    (s.rowDual.get i + s.colDual.get j - x).isNaN = false := by
  have hsum := (Binary64.le_iff.1 (Binary64.zero_le_add (h.rowDual i).2.1 (h.colDual j))).2.1
  rw [Binary64.sub_eq_add_opposite]
  exact Binary64.isNaN_add_of_isFinite hsum ((Binary64.isFinite_opposite x).trans hx)

/-- At the beginning every number has its sign. -/
theorem wellSigned_start (hwork : Between work least greatest) (hgreatest : 0 ≤ greatest) : (start work).WellSigned work := by
  refine ⟨fun i => ?_, fun j => ?_, fun j => ?_⟩
  · obtain ⟨hfin, hnonneg, _⟩ := rowDual_start hwork hgreatest i
    have hstart : (start work).rowDual.get i = State.greatest (work.get i) := get_map _ _ i
    refine ⟨hfin, ?_, hstart ▸ le_self_of_isFinite hfin⟩
    rwa [le_iff isFinite_zero hfin, value_zero]
  · rw [show (start work).colDual.get j = Scalar.zero by simp [start, restart]]
    exact le_self_of_isFinite isFinite_zero
  · rw [show (start work).slack.get j = Scalar.infinity by simp [start, restart]]
    exact Binary64.isNaN_infinity

/-- Scanning edges keeps the signs: what a column takes is less than what it had, so it is a number. -/
theorem State.WellSigned.scanned (h : s.WellSigned work) {i : Fin n} {columns : List (Fin n)} (hscan : Scanned work i columns s t) :
    t.WellSigned work := by
  refine ⟨by rw [hscan.rowDual_eq]; exact h.rowDual, by rw [hscan.colDual_eq]; exact h.colDual, fun j => ?_⟩
  by_cases htake : j ∈ columns ∧ ∃ x, Lowers work s i j x
  · obtain ⟨hj, x, hx⟩ := htake
    rw [(hscan.lowered j x hj hx).1]
    exact Binary64.le_self_iff.1 (le_self (le_of_lt hx.lt)).1
  · rw [(hscan.kept j fun hj x hx => htake ⟨hj, x, hx⟩).1]
    exact h.slack j

/-- A step of a search keeps the signs. -/
theorem State.WellSigned.step (h : s.WellSigned work) (hstep : Step work s t) : t.WellSigned work := by
  cases hstep with
  | @scan i rows _ =>
    have hpopped : State.WellSigned work { s with rowStack := rows } := h.of_eq rfl rfl rfl
    exact hpopped.scanned (scanned_foldl work i (List.nodup_finRange n) _)
  | @visit i j cols _ _ _ =>
    have hvisit := visited_reach s i j cols
    exact h.of_eq hvisit.rowDual_eq hvisit.colDual_eq hvisit.slack_eq

/-- A search keeps the signs. -/
theorem State.WellSigned.of_steps (h : s.WellSigned work) (hst : ReflTransGen (Step work) s t) : t.WellSigned work := by
  induction hst with
  | refl => exact h
  | tail _ hstep ih => exact ih.step hstep

/-- New trees keep the signs if the dual variables are the same: no slack is bounded any more. -/
theorem State.WellSigned.reseed (h : s.WellSigned work) (hrow : u.rowDual = s.rowDual) (hcol : u.colDual = s.colDual) :
    u.reseed.WellSigned work := by
  refine ⟨?_, ?_, fun j => ?_⟩
  · rw [show u.reseed.rowDual = s.rowDual from hrow]
    exact h.rowDual
  · rw [show u.reseed.colDual = s.colDual from hcol]
    exact h.colDual
  · rw [show u.reseed.slack.get j = Scalar.infinity by simp [State.reseed]]
    exact Binary64.isNaN_infinity

/-- Walking back along a path keeps the signs. -/
theorem State.WellSigned.flipFrom (h : s.WellSigned work) (pairs : ℕ) (released : Option (Fin n)) (j : Fin n) :
    (State.flipFrom pairs released j s).state.WellSigned work := by
  obtain ⟨hrow, hcol, hslack⟩ := flipFrom_numbers pairs released j s
  exact h.of_eq hrow hcol hslack

/-- An admissible update keeps the signs. -/
theorem State.WellSigned.update (h : s.WellSigned work) (hproper : Proper s) {amount : Float} (ha : Admissible s amount) :
    (s.update amount).WellSigned work := by
  have hamount : Scalar.le Scalar.zero amount = true := by
    rw [le_iff isFinite_zero ha.finite, value_zero]
    exact ha.pos.le
  refine ⟨fun i => ?row, fun j => ?col, fun j => ?slack⟩
  case row =>
    rw [get_rowDual_update]
    split
    · rename_i hi
      obtain ⟨hfin, hnonneg, hle⟩ := h.rowDual i
      obtain ⟨hfin', hval⟩ := ha.rowDual_sub hproper (isReached_iff.1 hi)
      have hless := ha.le_rowDual i (isReached_iff.1 hi)
      -- The exact difference is between zero and what there was, and rounding keeps it there.
      refine ⟨hfin', ?_, le_trans ?_ hle⟩
      · rw [le_iff isFinite_zero hfin', value_zero, hval]
        exact rounded_nonneg (sub_nonneg.2 hless)
      · rw [le_iff hfin' hfin, hval]
        exact (rounded_mono (sub_le_self _ ha.pos.le)).trans_eq (rounded_value hfin)
    · exact h.rowDual i
  case col =>
    rw [get_colDual_update]
    split
    · exact h.colDual j
    · exact Binary64.zero_le_add (h.colDual j) hamount
  case slack =>
    rw [get_slack_update]
    split
    · rename_i htake
      rw [Bool.and_eq_true, Option.isSome_iff_exists] at htake
      obtain ⟨hpos, i, hlabel⟩ := htake
      -- A slack that is lowered has a label, so it is finite: infinity is not taken from infinity.
      exact Binary64.isNaN_of_isFinite (ha.slack_sub hpos (hproper.slack i j hlabel hpos)).1
    · exact h.slack j

/-! ## Searches -/

section Searches

variable (hwork : Between work least greatest) (hgreatest : 0 ≤ greatest) (hn : 0 < n) {effort : Effort}

include hwork hgreatest hn

/-- At the beginning of every round every number has its sign. -/
theorem Stage.wellSigned (h : Stage work s effort) : s.WellSigned work := by
  refine Stage.induction (motive := fun s _ => s.WellSigned work) hwork hgreatest hn ?start ?augment ?update h
  case start => exact wellSigned_start hwork hgreatest
  case augment =>
    intro s t u j effort _ _ hst hr _ ih
    exact ((ih.of_steps hst).reseed hr.flipped.rowDual_eq hr.flipped.colDual_eq).of_eq rfl rfl rfl
  case update =>
    intro s t effort _ hv hst _ ha _ ih
    exact (ih.of_steps hst).update (hv.of_steps hst).proper ha

/-- Wherever a search ends, every number has its sign. -/
theorem Stage.wellSigned_of_search (h : Stage work s effort) {found : Option (Fin n)} (hsearch : s.search work = (found, t)) :
    t.WellSigned work := by
  obtain ⟨r, hst, hout⟩ := exists_outcome work s
  have hr := (h.wellSigned hwork hgreatest hn).of_steps hst
  rw [hsearch] at hout
  cases hout with
  | found _ _ _ => exact hr.of_eq rfl rfl rfl
  | exhausted _ _ => exact hr

/-- At every state that a search passes every number has its sign. -/
theorem Passed.wellSigned (h : Passed work s) : s.WellSigned work := by
  cases h with
  | grown hstage hst => exact (hstage.wellSigned hwork hgreatest hn).of_steps hst
  | @scanning s t effort i rows columns hstage hst _ hcolumns =>
    have ht := (hstage.wellSigned hwork hgreatest hn).of_steps hst
    have hpopped : State.WellSigned work { t with rowStack := rows } := ht.of_eq rfl rfl rfl
    exact hpopped.scanned (scanned_foldl work i ((List.nodup_finRange n).sublist hcolumns.sublist) _)
  | @flipping s t effort j pairs hstage hsearch =>
    exact (hstage.wellSigned_of_search hwork hgreatest hn hsearch).flipFrom pairs none j
  | @reseeded s t u effort j events hstage hsearch hflip =>
    obtain ⟨hrow, hcol, _⟩ := flipFrom_numbers (n + 1) none j t
    rw [show State.flipFrom (n + 1) none j t = ⟨u, none, events⟩ from hflip] at hrow hcol
    exact (hstage.wellSigned_of_search hwork hgreatest hn hsearch).reseed hrow hcol

/-- Every update is made by the least slack, and this is finite and positive. -/
theorem Stage.positive_leastSlack (h : Stage work s effort) (hsearch : s.search work = (none, t))
    (hupdated : (t.relax effort).verdict = .unfinished) :
    (t.relax effort).state = t.update t.leastSlack ∧ t.leastSlack.isFinite = true ∧ Scalar.positive t.leastSlack = true := by
  obtain ⟨hst, _⟩ := exhausted_of_search hsearch
  have ht := (h.valid hwork hgreatest hn).of_steps hst
  unfold relax at hupdated ⊢
  split at hupdated
  · exact nomatch hupdated
  · rename_i hlt
    obtain ⟨i, _, hi⟩ := ht.exists_reached
    have ha := ht.proper.admissible_leastSlack hi hlt
    exact ⟨by rw [if_neg hlt], ha.finite, (positive_iff ha.finite).2 ha.pos⟩

end Searches

/-! ## Certificates -/

/-- The certificate of a matcher with finite weights is not refused for its dual variables if none of them is negative. -/
theorem certify_ne_negativeDual {m : PrimalDual Float n}
    (hfinite : ∀ i j x, (m.work.get i).get j = some x → Scalar.isFinite x = true ∧ 0 ≤ value x)
    (hduals : ∀ x ∈ m.duals, Scalar.le Scalar.zero x = true) : m.certify ≠ .error .negativeDual := by
  obtain ⟨hscale, hone, _⟩ := scale_spec hfinite
  obtain ⟨htol, hlow, _⟩ := tolerance_spec hscale hone
  have hneg : Scalar.le Scalar.zero (-m.tolerance) = false := by
    have hpos : 0 < value m.tolerance := lt_of_lt_of_le (by positivity) hlow
    rw [← Bool.not_eq_true, le_iff isFinite_zero ((isFinite_neg _).trans htol), value_zero, value_neg htol]
    linarith
  have hany : (m.duals.any fun x => Scalar.lt x (-m.tolerance)) = false := by
    rw [List.any_eq_false]
    intro x hx hlt
    exact Bool.false_ne_true (hneg.symm.trans (le_trans (hduals x hx) (le_of_lt hlt)))
  intro hcertify
  simp only [certify, hany, Bool.false_eq_true, if_false] at hcertify
  split at hcertify
  · cases hcertify
  · split at hcertify
    · cases hcertify
    · split at hcertify <;> cases hcertify

/-! ## Calls -/

/-- If finite binary64 weights pass the range check, every number has its sign at every state that the search passes, and so at its end,
every slack that is computed on the way is a number, and every update is made by a finite and positive amount. So no dual variable that
is left is negative or undefined, and the certificate is not refused for one. -/
theorem solve_wellSigned (m : PrimalDual Float n) {goal : Goal} {w : Weights Float} (h : w.n = n) (hfinite : w.IsFinite)
    {least greatest : Float} (hbounds : bounds? goal w = some (least, greatest))
    (hshift : isShiftable least greatest (offsetOf w least greatest) = true) :
    let work := shift goal (offsetOf w least greatest) w h
    let m' := (m.solve goal w).matcher
    Passed work m'.state ∧
      (∀ s, Passed work s → s.WellSigned work ∧
        ∀ i j x, (work.get i).get j = some x → (s.rowDual.get i + s.colDual.get j - x).isNaN = false) ∧
      (∀ s t effort, Stage work s effort → s.search work = (none, t) → (t.relax effort).verdict = .unfinished →
        (t.relax effort).state = t.update t.leastSlack ∧ t.leastSlack.isFinite = true ∧ Scalar.positive t.leastSlack = true) ∧
      (∀ x ∈ m'.duals, Scalar.le Scalar.zero x = true) ∧ m'.certify ≠ .error .negativeDual := by
  intro work m'
  obtain ⟨hwork, _, hpos, hle⟩ := between_shift hbounds hshift h
  have hgreatest := hpos.le.trans hle
  have hn : 0 < n := h ▸ pos_of_bounds hbounds
  have hentry : ∀ i j x, (work.get i).get j = some x → Scalar.isFinite x = true ∧ Scalar.positive x = true := fun i j =>
    (get_shift_of_isFinite hfinite hbounds hshift h i j).2
  have hsearched : Searched work (offsetOf w least greatest) goal m' := by
    have hsolve := solve_eq_searchTable m h hn hbounds hshift
    rw [show m' = _ from congrArg Solved.matcher hsolve]
    exact searched_searchTable goal _ work
  have hpassed : Passed work m'.state := by
    rw [hsearched.state_eq]
    exact (stablePoint_complete hwork hgreatest hn).passed
  have hsigned := hpassed.wellSigned hwork hgreatest hn
  have hduals : ∀ x ∈ m'.duals, Scalar.le Scalar.zero x = true := by
    intro x hx
    rw [duals_eq_map, List.mem_append, List.mem_map, List.mem_map] at hx
    obtain ⟨i, _, rfl⟩ | ⟨j, _, rfl⟩ := hx
    · exact (hsigned.rowDual i).2.1
    · exact hsigned.colDual j
  refine ⟨hpassed, fun s hs => ?_, fun s t effort hstage => hstage.positive_leastSlack hwork hgreatest hn, hduals, ?_⟩
  · have hs := hs.wellSigned hwork hgreatest hn
    exact ⟨hs, fun i j x hx => hs.isNaN_offer (hentry i j x hx).1⟩
  · refine certify_ne_negativeDual (fun i j x hx => ?_) hduals
    rw [hsearched.work_eq] at hx
    obtain ⟨hfin, hxpos⟩ := hentry i j x hx
    exact ⟨hfin, ((positive_iff hfin).1 hxpos).le⟩

/-- Weights that leave an infinite dual variable of a column: after three updates it would exceed the greatest number. -/
theorem solve_wellSigned_infinite :
    let top := Float.ofBits 0x7fefffffffffffff
    let zero := Float.ofBits 0
    let w : Weights Float := ⟨3, #v[some top, some zero, some zero, some top, some zero, some (Float.ofBits 0x7fe8000000000000),
      some top, some zero, some (Float.ofBits 0x7fdffffffffffffb)]⟩
    let m := ((new 3 : PrimalDual Float 3).solve .max w).matcher
    w.IsFinite ∧ bounds? .max w = some (zero, top) ∧ isShiftable zero top (offsetOf w zero top) = true ∧
      (m.state.colDual.get 0).isFinite = false ∧ (∀ x ∈ m.duals, Scalar.le Scalar.zero x = true) ∧
      m.certify ≠ .error .negativeDual := by
  intro top zero w m
  have hfinite : w.IsFinite := by
    unfold Weights.IsFinite
    decide +kernel
  have hbounds : bounds? .max w = some (zero, top) := by decide +kernel
  have hshift : isShiftable zero top (offsetOf w zero top) = true := by decide +kernel
  obtain ⟨_, _, _, hduals, hcertify⟩ := solve_wellSigned (new 3) rfl hfinite hbounds hshift
  exact ⟨hfinite, hbounds, hshift, by decide +kernel, hduals, hcertify⟩

end PerfectMatching.PrimalDual
