import PerfectMatching.Proofs.Search.Reachability

/-!
# The slacks

The slack of a column is kept while the trees grow and the dual variables move: a scan lowers it to what an edge offers, an update by the
amount, and a column that has become tight is left alone. With an arithmetic that rounds nothing it is all the same what looking at
all edges anew would yield, whenever a search finds nothing: as long as the column is not tight, the least slack of an edge from a row
reached, attained by the row that labels the column, and zero afterwards (`PrimalDual.solve_slackRecomputed`). The amount of a dual
update rests on this. That no slack falls below zero needs an invariant of its own (`State.SlackNonneg`): an edge offers no less than zero,
and an update is by no more than the least slack.
-/

namespace PerfectMatching.PrimalDual

open LawfulScalar Relation State

/-! ## Recomputing the slacks -/

section Recomputed

variable {α : Type} [Scalar α] {n : ℕ}

/-- The slack of an edge, if it is allowed and its row has been reached. -/
def State.offered? (work : Table α n) (s : State α n) (i j : Fin n) : Option α :=
  if (s.rowLabel.get i).isReached then ((work.get i).get j).map fun w => s.rowDual.get i + s.colDual.get j - w else none

/-- The least slack of an edge from a row reached to a column; infinity if there is none. -/
def State.leastOffer (work : Table α n) (s : State α n) (j : Fin n) : α :=
  Scalar.least ((List.finRange n).filterMap fun i => s.offered? work i j)

/-- The slack of a column is what looking at all edges anew yields: if it is positive, it is the least slack of an edge from a row reached,
infinite exactly if there is no such edge, and attained by the row that labels the column, which has no label exactly if there is no
such edge. If it is not positive, it is zero, and the edge from the row that labels the column is tight. -/
structure State.SlackRecomputed (work : Table α n) (s : State α n) (j : Fin n) : Prop where
  least : Scalar.positive (s.slack.get j) = true → s.slack.get j = s.leastOffer work j
  infinite_iff : Scalar.positive (s.slack.get j) = true →
    (s.slack.get j = Scalar.infinity ↔ ∀ i, s.offered? work i j = none)
  unlabelled_iff : Scalar.positive (s.slack.get j) = true → (s.colLabel.get j = none ↔ ∀ i, s.offered? work i j = none)
  attained : Scalar.positive (s.slack.get j) = true → ∀ i, s.colLabel.get j = some i → s.offered? work i j = some (s.slack.get j)
  tight : Scalar.positive (s.slack.get j) = false →
    s.slack.get j = Scalar.zero ∧ ∃ i, s.colLabel.get j = some i ∧ s.IsTight work i j

/-- What a row offers a column. -/
theorem State.offered?_eq_some_iff {work : Table α n} {s : State α n} {i j : Fin n} {x : α} :
    s.offered? work i j = some x ↔
      s.Reached i ∧ ∃ w, (work.get i).get j = some w ∧ s.rowDual.get i + s.colDual.get j - w = x := by
  unfold offered?
  rw [← isReached_iff]
  split
  · rename_i hi
    simp [hi]
  · rename_i hi
    simp [hi]

end Recomputed

variable {n : ℕ} {work : Table Exact n} {s t : State Exact n} {least greatest spent : ℚ} {updates : ℕ}

/-! ## No slack is negative -/

/-- No slack is negative. -/
def State.SlackNonneg (s : State Exact n) : Prop := ∀ j, 0 ≤ value (s.slack.get j)

/-- New trees have no negative slack. -/
theorem State.Fresh.slackNonneg (h : Fresh s) : s.SlackNonneg := by
  intro j
  rw [h.slack_eq]
  exact le_rfl

/-- A step of a search makes no slack negative: the dual variables cover every edge. -/
theorem State.SlackNonneg.step (h : s.SlackNonneg) (hnear : Near work greatest spent updates s) (hv : Valid work s)
    (hwork : Between work least greatest) (hleast : 0 ≤ least) (hgreatest : 0 ≤ greatest) (hstep : Step work s t) :
    t.SlackNonneg := by
  intro j
  cases hstep with
  | @scan i rows _ =>
    rcases (rowScanned_scan work i rows s).column j with ⟨x, hx, hslack, _⟩ | ⟨_, hslack, _⟩
    · obtain ⟨w, hw, _, _, herr⟩ := hnear.lowers hv hwork hleast (steady_exact hgreatest _) hx
      have hcover := hnear.feasible i j w hw (Exact.le_refl w)
      rw [leeway_exact] at herr hcover
      rw [hslack]
      linarith [(abs_le.1 herr).1]
    · rw [hslack]
      exact h j
  | @visit i k cols _ _ _ =>
    rw [(visited_reach s i k cols).slack_eq]
    exact h j

/-- An admissible update makes no slack negative. -/
theorem State.SlackNonneg.update (h : s.SlackNonneg) (hproper : Proper s) {amount : Exact} (ha : Admissible s amount) :
    (s.update amount).SlackNonneg := by
  intro j
  rw [get_slack_update]
  split
  · rename_i htake
    rw [Bool.and_eq_true, Option.isSome_iff_exists] at htake
    obtain ⟨hpos, i, hlabel⟩ := htake
    have hfin := hproper.slack i j hlabel hpos
    rw [(ha.slack_sub hpos hfin).2]
    exact rounded_nonneg (sub_nonneg.2 (ha.le_slack j hpos hfin))
  · exact h j

section Stages

variable (hwork : Between work least greatest) (hleast : 0 ≤ least) (hgreatest : 0 ≤ greatest)

include hwork hleast hgreatest

/-- A search makes no slack negative. -/
theorem State.SlackNonneg.of_steps (h : s.SlackNonneg) (hnear : Near work greatest spent updates s) (hv : Valid work s)
    (hst : ReflTransGen (Step work) s t) : t.SlackNonneg := by
  induction hst with
  | refl => exact h
  | tail hsteps hstep ih =>
    have hnear := hnear.of_steps hv hwork hleast (steady_exact hgreatest _) hsteps
    exact ih.step hnear (hv.of_steps hsteps) hwork hleast hgreatest hstep

/-- At the beginning of every round no slack is negative. -/
theorem Stage.slackNonneg {effort : Effort} (hn : 0 < n) (h : Stage work s effort) : s.SlackNonneg := by
  refine Stage.induction (motive := fun s _ => s.SlackNonneg) hwork hgreatest hn ?start ?augment ?update h
  case start => exact (fresh_start work).slackNonneg
  case augment =>
    intro s t u j effort _ _ _ _ _ _
    exact (fresh_reseed u).slackNonneg
  case update =>
    intro s t effort hstage hv hst _ ha _ ih
    obtain ⟨spent, hnear⟩ := hstage.near hwork hleast hn (steady_exact hgreatest _)
    exact (ih.of_steps hwork hleast hgreatest hnear hv hst).update (hv.of_steps hst).proper ha

end Stages

/-! ## The slacks when nothing is left to search -/

section Exhausted

variable (h : Near work greatest spent updates t) (hwork : Between work least greatest) (hv : Valid work t)

include h hwork hv

/-- What an edge offers is what its weight lacks of the dual variables at its ends. -/
theorem State.Near.value_offered {i j : Fin n} {w : Exact} (hw : (work.get i).get j = some w) :
    Scalar.isFinite (t.rowDual.get i + t.colDual.get j - w) = true ∧
      value (t.rowDual.get i + t.colDual.get j - w) = value (t.rowDual.get i) + value (t.colDual.get j) - value w := by
  rw [Exact.eq_finite_of_isFinite (hv.proper.rowDual i).1, Exact.eq_finite_of_isFinite (h.colDual j).1,
    Exact.eq_finite_of_isFinite (hwork i j w hw (Exact.le_refl w)).1]
  exact ⟨rfl, rfl⟩

variable (hex : Exhausted t) {j : Fin n} (hj : Scalar.positive (t.slack.get j) = true)

include hex hj

/-- The slack of a column that is not tight is at most what a row offers it. -/
theorem State.Near.slack_le_offered {i : Fin n} {x : Exact} (hx : t.offered? work i j = some x) :
    Scalar.isFinite (t.slack.get j) = true ∧ Scalar.le (t.slack.get j) x = true := by
  obtain ⟨hi, w, hw, rfl⟩ := offered?_eq_some_iff.1 hx
  obtain ⟨hfin, hle⟩ :=
    h.scanned i j w hi (hex.not_mem_rowStack i) hj (hv.grown.not_mate hex hi hj) hw (Exact.le_refl w)
  obtain ⟨hfin', hval⟩ := h.value_offered hwork hv hw
  rw [leeway_exact, add_zero, ← hval] at hle
  exact ⟨hfin, (le_iff hfin hfin').2 hle⟩

/-- The slack of a column that is not tight is what the row that labels it offers. -/
theorem State.Near.offered_of_label {i : Fin n} (hlabel : t.colLabel.get j = some i) :
    t.offered? work i j = some (t.slack.get j) := by
  obtain ⟨hi, _, w, hw, _⟩ := hv.grown.label i j hlabel
  obtain ⟨hfin, hval⟩ := h.value_offered hwork hv hw
  have hoffer : t.offered? work i j = some (t.rowDual.get i + t.colDual.get j - w) :=
    offered?_eq_some_iff.2 ⟨hi, w, hw, rfl⟩
  obtain ⟨hslack, hle⟩ := h.slack_le_offered hwork hv hex hj hoffer
  have hge := h.label i j w hlabel hw
  rw [leeway_exact, add_zero, max_eq_left ((positive_iff hslack).1 hj).le] at hge
  rw [le_iff hslack hfin, hval] at hle
  rw [hoffer, Exact.eq_of_value_eq hfin hslack (by linarith)]

/-- A column that is not tight has no label exactly if no row offers it anything. -/
theorem State.Near.unlabelled_iff : t.colLabel.get j = none ↔ ∀ i, t.offered? work i j = none := by
  constructor
  · intro hnone i
    by_contra hoffer
    obtain ⟨x, hx⟩ := Option.ne_none_iff_exists'.1 hoffer
    have hfin := (h.slack_le_offered hwork hv hex hj hx).1
    rw [hv.grown.unlabelled j hnone, isFinite_infinity] at hfin
    exact Bool.noConfusion hfin
  · intro hnone
    by_contra hlabel
    obtain ⟨i, hi⟩ := Option.ne_none_iff_exists'.1 hlabel
    exact nomatch (hnone i).symm.trans (h.offered_of_label hwork hv hex hj hi)

/-- The slack of a column that is not tight is infinite exactly if no row offers it anything. -/
theorem State.Near.infinite_iff : t.slack.get j = Scalar.infinity ↔ ∀ i, t.offered? work i j = none := by
  rw [← h.unlabelled_iff hwork hv hex hj]
  refine ⟨fun hinf => ?_, hv.grown.unlabelled j⟩
  by_contra hlabel
  obtain ⟨i, hi⟩ := Option.ne_none_iff_exists'.1 hlabel
  have hfin := (h.slack i j hi).1
  rw [hinf, isFinite_infinity] at hfin
  exact Bool.noConfusion hfin

/-- The slack of a column that is not tight is the least that a row offers it. -/
theorem State.Near.slack_eq_leastOffer : t.slack.get j = t.leastOffer work j := by
  refine (Exact.least_eq (fun x hx => ?_) ?_).symm
  · obtain ⟨i, _, hx⟩ := List.mem_filterMap.1 hx
    exact (h.slack_le_offered hwork hv hex hj hx).2
  · cases hlabel : t.colLabel.get j with
    | none => exact Or.inl (hv.grown.unlabelled j hlabel)
    | some i =>
      exact Or.inr (List.mem_filterMap.2 ⟨i, List.mem_finRange i, h.offered_of_label hwork hv hex hj hlabel⟩)

end Exhausted

/-- Whenever a search finds nothing, every slack is what looking at all edges anew yields. -/
theorem Stage.slackRecomputed (hwork : Between work least greatest) (hleast : 0 ≤ least) (hgreatest : 0 ≤ greatest) (hn : 0 < n)
    {effort : Effort} (hstage : Stage work s effort) (hsearch : s.search work = (none, t)) (j : Fin n) :
    t.SlackRecomputed work j := by
  obtain ⟨hst, hex⟩ := exhausted_of_search hsearch
  have hvs := hstage.valid hwork hgreatest hn
  have hv := hvs.of_steps hst
  obtain ⟨spent, hnears⟩ := hstage.near hwork hleast hn (steady_exact hgreatest _)
  have hnear := hnears.of_steps hvs hwork hleast (steady_exact hgreatest _) hst
  refine ⟨hnear.slack_eq_leastOffer hwork hv hex, hnear.infinite_iff hwork hv hex, hnear.unlabelled_iff hwork hv hex,
    fun hj _ => hnear.offered_of_label hwork hv hex hj, fun hj => ?_⟩
  obtain ⟨i, hlabel⟩ := hv.grown.exists_label hj
  have hfin := (hnear.slack i j hlabel).1
  have hnonneg := (hstage.slackNonneg hwork hleast hgreatest hn).of_steps hwork hleast hgreatest hnears hvs hst j
  have hzero := hnonneg.antisymm' (nonpos_of_not_positive hfin hj)
  exact ⟨Exact.eq_of_value_eq hfin isFinite_zero (hzero.trans value_zero.symm), i, hlabel,
    hnear.isTight_of_label hwork hv hlabel hj⟩

/-- If exact weights pass the range check, whenever a search of the call finds nothing, every slack is what looking at all edges anew
yields. -/
theorem solve_slackRecomputed (m : PrimalDual Exact n) {goal : Goal} {w : Weights Exact} (h : w.n = n)
    {least greatest : Exact} (hbounds : bounds? goal w = some (least, greatest))
    (hshift : isShiftable least greatest (offsetOf w least greatest) = true) :
    let work := shift goal (offsetOf w least greatest) w h
    m.solve goal w = searchTable goal (offsetOf w least greatest) work ∧
      ∀ s effort t, Stage work s effort → s.search work = (none, t) → ∀ j, t.SlackRecomputed work j := by
  intro work
  obtain ⟨hwork, _, hpos, hle⟩ := between_shift hbounds hshift h
  have hn : 0 < n := h ▸ pos_of_bounds hbounds
  exact ⟨solve_eq_searchTable m h hn hbounds hshift, fun s effort t hstage hsearch j =>
    hstage.slackRecomputed hwork hpos.le (hpos.le.trans hle) hn hsearch j⟩

/-- With the weights `3`, `1` and `2` the second search finds nothing. The first column is tight then, and the slack of the second one is what
the first row offers it. -/
theorem solve_slackRecomputed_two :
    let w : Weights Exact := ⟨2, #v[some (.finite 3), some (.finite 1), some (.finite 2), none]⟩
    let offset := offsetOf w (.finite 1) (.finite 3)
    let work : Table Exact 2 := shift .max offset w rfl
    let first := (State.start work).round work ⟨0, 0⟩
    let t := (first.state.search work).2
    bounds? .max w = some (.finite 1, .finite 3) ∧ isShiftable (.finite 1) (.finite 3) offset = true ∧
      (first.state.search work).1 = none ∧ t.slack = #v[.finite 0, .finite 2] ∧ ∀ j, t.SlackRecomputed work j := by
  intro w offset work first t
  have hbounds : bounds? .max w = some (.finite 1, .finite 3) := by decide +kernel
  have hshift : isShiftable (.finite 1) (.finite 3) offset = true := by decide +kernel
  have hfirst : Stage work first.state first.effort := .next .start (by decide +kernel)
  have hnone : (first.state.search work).1 = none := by decide +kernel
  have hsearch : first.state.search work = (none, t) := by rw [← hnone]
  exact ⟨hbounds, hshift, hnone, by decide +kernel,
    (solve_slackRecomputed (new 2) rfl hbounds hshift).2 _ _ _ hfirst hsearch⟩

end PerfectMatching.PrimalDual
