import PerfectMatching.Proofs.Binary64.Whole
import PerfectMatching.Proofs.Search.Lockstep
import PerfectMatching.Proofs.Search.Drift

/-!
# Searches on whole numbers

If the weights of a table are whole numbers and not too large, a search on binary64 numbers goes in lockstep with the search on exact
ones. The bounds that this needs are those of the exact search: there the dual variables are at most the greatest weight, so the sum
of two is at most twice as much, and every slack and every amount lies below such a sum. Main statement: `Stage.lockstep`.
-/

namespace PerfectMatching.PrimalDual

open Binary64 LawfulScalar Relation State

variable {n : ℕ} {greatest spent : ℚ} {updates : ℕ}

/-! ## Whole tables -/

/-- The weights of the table are whole numbers, and twice the greatest one is still small enough. -/
structure WholeTable (work : Table Float n) (greatest : ℚ) : Prop where
  whole : ∀ i j w, (work.get i).get j = some w → Whole w ∧ 0 ≤ Binary64.value w ∧ Binary64.value w ≤ greatest
  nonneg : 0 ≤ greatest
  small : 2 * greatest ≤ 2 ^ 53

variable {work : Table Float n} {s t : State Float n}

/-- The weights of a whole table as exact weights. -/
theorem WholeTable.between (h : WholeTable work greatest) : Between (mapTable Exact.ofFloat work) 0 greatest := by
  intro i j w hw _
  rw [get_mapTable] at hw
  obtain ⟨x, hx, rfl⟩ := Option.map_eq_some_iff.1 hw
  obtain ⟨hwhole, h0, hle⟩ := h.whole i j x hx
  rw [isFinite_ofFloat, value_ofFloat]
  exact ⟨hwhole.finite, h0, hle⟩

/-- A number that is whole or infinite is whole if it is finite as an exact weight. -/
theorem whole_of_isFinite {x : Float} (h : WholeOrInfinite x) (hx : Scalar.isFinite (Exact.ofFloat x) = true) : Whole x := by
  rcases h with h | rfl
  · exact h
  · rw [ofFloat_infinity, isFinite_infinity] at hx
    exact nomatch hx

/-- The search on exact weights is where the state says, and its numbers are near. -/
structure Exactly (work : Table Float n) (greatest spent : ℚ) (updates : ℕ) (s : State Float n) : Prop where
  numbers : Numbers WholeOrInfinite s
  valid : Valid (mapTable Exact.ofFloat work) (s.map Exact.ofFloat)
  near : Near (mapTable Exact.ofFloat work) greatest spent updates (s.map Exact.ofFloat)

/-- The dual variable of a row is a whole number and at most the greatest weight. -/
theorem Exactly.rowDual (h : Exactly work greatest spent updates s) (i : Fin n) :
    Whole (s.rowDual.get i) ∧ 0 ≤ Binary64.value (s.rowDual.get i) ∧ Binary64.value (s.rowDual.get i) ≤ greatest := by
  have hproper := h.valid.proper.rowDual i
  have hle := h.near.rowDual_le i
  rw [get_rowDual_map] at hproper hle
  rw [value_ofFloat] at hproper hle
  exact ⟨whole_of_isFinite (h.numbers.rowDual i) hproper.1, hproper.2, hle⟩

/-- The dual variable of a column is a whole number and at most the greatest weight. -/
theorem Exactly.colDual (h : Exactly work greatest spent updates s) (j : Fin n) :
    Whole (s.colDual.get j) ∧ 0 ≤ Binary64.value (s.colDual.get j) ∧ Binary64.value (s.colDual.get j) ≤ greatest := by
  have hcol := h.near.colDual j
  have hle := h.near.colDual_le_exact h.valid j
  rw [get_colDual_map] at hcol hle
  rw [value_ofFloat] at hcol hle
  exact ⟨whole_of_isFinite (h.numbers.colDual j) hcol.1, hcol.2.1, hle⟩

/-- The dual variables cover every edge. -/
theorem Exactly.feasible (h : Exactly work greatest spent updates s) {i j : Fin n} {w : Float} (hw : (work.get i).get j = some w) :
    Binary64.value w ≤ Binary64.value (s.rowDual.get i) + Binary64.value (s.colDual.get j) := by
  have hw' := (get_mapTable Exact.ofFloat work i j).trans (congrArg (Option.map Exact.ofFloat) hw)
  have hle := h.near.feasible i j _ hw' (Exact.le_refl _)
  rwa [get_rowDual_map, get_colDual_map, value_ofFloat, value_ofFloat, value_ofFloat, leeway_exact, add_zero] at hle

/-- The slacks of all edges are whole numbers, and those of the exact search. -/
theorem Exactly.alike (h : Exactly work greatest spent updates s) (hwork : WholeTable work greatest) :
    Alike Exact.ofFloat WholeOrInfinite work s := by
  refine ⟨h.numbers, fun i j w hw => ?_⟩
  obtain ⟨hu, hu0, hule⟩ := h.rowDual i
  obtain ⟨hv, hv0, hvle⟩ := h.colDual j
  obtain ⟨hwhole, hw0, hwle⟩ := hwork.whole i j w hw
  have hsmall := hwork.small
  have habs : |Binary64.value (s.rowDual.get i) + Binary64.value (s.colDual.get j)| ≤ 2 ^ 53 := by
    rw [abs_of_nonneg (by linarith)]
    linarith
  obtain ⟨hsum, hval⟩ := hu.add hv habs
  have habs' : |Binary64.value (s.rowDual.get i + s.colDual.get j) - Binary64.value w| ≤ 2 ^ 53 := by
    rw [hval, abs_le]
    constructor <;> linarith
  rw [← hu.ofFloat_add hv habs]
  exact ⟨Or.inl (hsum.sub hwhole habs').1, hsum.ofFloat_sub hwhole habs'⟩

/-- The numbers that an admissible update changes stay whole, and those of the exact search. -/
theorem Exactly.movable (h : Exactly work greatest spent updates t) (hwork : WholeTable work greatest) {amount : Float}
    (hamount : WholeOrInfinite amount) (ha : Admissible (t.map Exact.ofFloat) (Exact.ofFloat amount)) :
    Movable Exact.ofFloat WholeOrInfinite t amount := by
  have hwhole := whole_of_isFinite hamount ha.finite
  have hpos := ha.pos
  have hsmall := hwork.small
  rw [value_ofFloat] at hpos
  have hle : ∀ i, t.Reached i → Binary64.value amount ≤ Binary64.value (t.rowDual.get i) := by
    intro i hi
    have := ha.le_rowDual i hi
    rwa [get_rowDual_map, value_ofFloat, value_ofFloat] at this
  refine ⟨fun i hi => ?row, fun j hj => ?col, fun i j hij hj => ?slack⟩
  case row =>
    obtain ⟨hu, hu0, hule⟩ := h.rowDual i
    have habs : |Binary64.value (t.rowDual.get i) - Binary64.value amount| ≤ 2 ^ 53 := by
      have := hle i hi
      rw [abs_le]
      constructor <;> linarith
    exact ⟨Or.inl (hu.sub hwhole habs).1, hu.ofFloat_sub hwhole habs⟩
  case col =>
    obtain ⟨hv, hv0, hvle⟩ := h.colDual j
    have habs : |Binary64.value (t.colDual.get j) + Binary64.value amount| ≤ 2 ^ 53 := by
      obtain ⟨r, _, hr⟩ := h.valid.exists_reached
      have := hle r hr
      have := (h.rowDual r).2.2
      rw [abs_le]
      constructor <;> linarith
    exact ⟨Or.inl (hv.add hwhole habs).1, hv.ofFloat_add hwhole habs⟩
  case slack =>
    have hfin := h.near.slack i j hij
    rw [get_slack_map] at hfin
    have hslack := whole_of_isFinite (h.numbers.slack j) hfin.1
    have hpos' : Scalar.positive ((t.map Exact.ofFloat).slack.get j) = true := by
      rw [get_slack_map, faithful_ofFloat.positive_eq (h.numbers.slack j)]
      exact hj
    have hle' := ha.le_slack j hpos' (by rw [get_slack_map]; exact hfin.1)
    rw [get_slack_map, value_ofFloat, value_ofFloat] at hle'
    have habs : |Binary64.value (t.slack.get j) - Binary64.value amount| ≤ 2 ^ 53 := by
      have := (abs_le.1 hslack.small).2
      rw [abs_le]
      constructor <;> linarith
    exact ⟨Or.inl (hslack.sub hwhole habs).1, hslack.ofFloat_sub hwhole habs⟩

/-! ## Lockstep -/

/-- A round on whole numbers is a round on exact weights. -/
theorem Exactly.round_map (h : Exactly work greatest spent updates s) (hwork : WholeTable work greatest) (effort : Effort) :
    (s.round work effort).map Exact.ofFloat = (s.map Exact.ofFloat).round (mapTable Exact.ofFloat work) effort ∧
      Numbers WholeOrInfinite (s.round work effort).state := by
  have halike := h.alike hwork
  refine halike.round_map faithful_ofFloat (fun t hsearch hlt => ?_) effort
  -- The exact search ends in the image of `t`, and there the least slack is admissible.
  obtain ⟨hmap, ht⟩ := halike.search_map faithful_ofFloat
  rw [hsearch] at hmap ht
  obtain ⟨hst, hex⟩ := exhausted_of_search hmap
  have hvalid := h.valid.of_steps hst
  have hnear := h.near.of_steps h.valid hwork.between le_rfl (steady_exact hwork.nonneg updates) hst
  obtain ⟨hdual, hPdual⟩ := ht.toNumbers.leastDual_map faithful_ofFloat
  obtain ⟨hslack, hPslack⟩ := ht.toNumbers.leastSlack_map faithful_ofFloat
  obtain ⟨i, _, hi⟩ := hvalid.exists_reached
  have hadmissible := hvalid.proper.admissible_leastSlack hi (by
    rw [← hdual, ← hslack, faithful_ofFloat.lt_eq hPdual hPslack, hlt]
    exact Bool.false_ne_true)
  have hexact : Exactly work greatest spent updates t := ⟨ht.toNumbers, hvalid, hnear⟩
  exact hexact.movable hwork hPslack (hslack.symm ▸ hadmissible)

/-- Where the exact search is at the beginning of a round. -/
theorem Stage.exactly {effort : Effort} (hwork : WholeTable work greatest) (hn : 0 < n) (hnumbers : Numbers WholeOrInfinite s)
    (hstage : Stage (mapTable Exact.ofFloat work) (s.map Exact.ofFloat) effort) :
    ∃ spent, Exactly work greatest spent effort.updates s := by
  obtain ⟨spent, hnear⟩ := hstage.near hwork.between le_rfl hn (steady_exact hwork.nonneg _)
  exact ⟨spent, hnumbers, hstage.valid hwork.between hwork.nonneg hn, hnear⟩

/-- Every round on whole numbers begins as one on exact weights does. -/
theorem Stage.lockstep {effort : Effort} (hwork : WholeTable work greatest) (hn : 0 < n) (hstage : Stage work s effort) :
    Stage (mapTable Exact.ofFloat work) (s.map Exact.ofFloat) effort ∧ Numbers WholeOrInfinite s := by
  induction hstage with
  | start =>
    obtain ⟨hstart, hnumbers⟩ := start_map faithful_ofFloat fun i j w hw => Or.inl (hwork.whole i j w hw).1
    rw [hstart]
    exact ⟨.start, hnumbers⟩
  | @next s effort _ hunfinished ih =>
    obtain ⟨spent, hexact⟩ := Stage.exactly hwork hn ih.2 ih.1
    obtain ⟨hround, hnumbers⟩ := hexact.round_map hwork effort
    have hnext := ih.1.next (by rw [← hround]; exact hunfinished)
    rw [← hround] at hnext
    exact ⟨hnext, hnumbers⟩

/-- A round of a search on whole numbers. -/
theorem Stage.round_map {effort : Effort} (hwork : WholeTable work greatest) (hn : 0 < n) (hstage : Stage work s effort) :
    (s.round work effort).map Exact.ofFloat = (s.map Exact.ofFloat).round (mapTable Exact.ofFloat work) effort ∧
      Numbers WholeOrInfinite (s.round work effort).state := by
  obtain ⟨hexact, hnumbers⟩ := hstage.lockstep hwork hn
  obtain ⟨spent, hexact⟩ := Stage.exactly hwork hn hnumbers hexact
  exact hexact.round_map hwork effort

/-- The steps of a search on whole numbers. -/
theorem Stage.searchFor_map {effort : Effort} (hwork : WholeTable work greatest) (hn : 0 < n) (hstage : Stage work s effort)
    (steps : ℕ) : searchFor (mapTable Exact.ofFloat work) steps (s.map Exact.ofFloat) =
      (searchFor work steps s).map id (State.map Exact.ofFloat) := by
  obtain ⟨hexact, hnumbers⟩ := hstage.lockstep hwork hn
  obtain ⟨spent, hexact⟩ := Stage.exactly hwork hn hnumbers hexact
  exact ((hexact.alike hwork).searchFor_map faithful_ofFloat steps).1

/-- A search on whole numbers is a search on exact weights. -/
theorem Stage.run_map {effort : Effort} (hwork : WholeTable work greatest) (hn : 0 < n) (hstage : Stage work s effort)
    (rounds : ℕ) :
    (s.run work rounds effort).map Exact.ofFloat = (s.map Exact.ofFloat).run (mapTable Exact.ofFloat work) rounds effort ∧
      Numbers WholeOrInfinite (s.run work rounds effort).state := by
  induction rounds generalizing s effort with
  | zero => exact ⟨rfl, (hstage.lockstep hwork hn).2⟩
  | succ rounds ih =>
    obtain ⟨hround, hnumbers⟩ := hstage.round_map hwork hn
    rw [run, run, ← hround]
    have hnext := hstage.next
    generalize s.round work effort = first at hnumbers hnext
    obtain ⟨state, effort', verdict, events⟩ := first
    cases verdict with
    | unfinished =>
      obtain ⟨hrest, hlast⟩ := ih (hnext rfl)
      refine ⟨?_, hlast⟩
      simp only [Progress.map, List.map_append, ← hrest]
    | _ => exact ⟨rfl, hnumbers⟩

end PerfectMatching.PrimalDual
