import PerfectMatching.Proofs.Invariant

/-!
# What a search reaches

With an arithmetic that rounds nothing, a search is exact, also if it goes on with trees that were grown before a dual update. If it
finds a column, the labels spell an alternating path of tight edges to it (`State.Grown.exists_spells`, `State.Spells.nodup`). If it
finds none, the rows reached and the tight columns are those that alternating paths of tight edges lead to, so no such path leads to
a column that is not matched (`State.Near.reaches_iff`). That rows scanned before an update need not be scanned again comes from
the slacks: an edge from such a row that the update has made tight has made its column tight, and to be visited.
-/

namespace PerfectMatching.PrimalDual

open LawfulScalar Relation State

variable {n : ℕ} {work : Table Exact n} {s t : State Exact n} {least greatest spent : ℚ} {updates : ℕ}

/-! ## Paths -/

section Paths

variable {i j : Fin n} {path : List (Fin n × Fin n)}

/-- The labels lead back along a path that they spell. -/
theorem State.Spells.traced (h : Spells work t j path) : ∃ root, t.Traced root j path := by
  induction h with
  | root hlabel hroot _ _ => exact ⟨_, .root hlabel hroot⟩
  | via _ hlabel hvia _ _ _ _ ih =>
    obtain ⟨root, ih⟩ := ih
    exact ⟨root, ih.via hlabel hvia⟩

/-- A path that the labels spell meets no row and no column twice. -/
theorem State.Spells.nodup (h : Spells work t j path) : (path.map Prod.fst).Nodup ∧ (path.map Prod.snd).Nodup := by
  obtain ⟨_, htraced⟩ := h.traced
  exact htraced.nodup

/-- The stack of the columns does not matter to the paths that the labels spell. -/
theorem State.Spells.with_colStack (h : Spells work t j path) (cols : List (Fin n)) :
    Spells work { t with colStack := cols } j path := by
  induction h with
  | root hlabel hroot hfree htight => exact .root hlabel hroot hfree htight
  | via _ hlabel hvia hmate hne hmatched htight ih => exact ih.via hlabel hvia hmate hne hmatched htight

/-- An alternating path of tight edges leads to the end of a path that the labels spell. -/
theorem State.Spells.reaches (h : Spells work t j path) (hagree : t.MatesAgree) : Reaches work t (.inr j) := by
  induction h with
  | root _ _ hfree htight =>
    refine .forth (.root hfree) ?_ htight
    rw [hfree]
    exact nofun
  | via _ _ _ hmate hne _ htight ih =>
    refine .forth (.back ih ((hagree _ _).1 hmate)) ?_ htight
    rw [hmate]
    exact fun heq => hne (Option.some.inj heq)

end Paths

/-! ## Searches -/

section Searches

variable (h : Near work greatest spent updates t) (hwork : Between work least greatest) (hv : Valid work t)

include h hwork hv

/-- The edge that has made a column tight is tight. -/
theorem State.Near.isTight_of_label {i j : Fin n} (hlabel : t.colLabel.get j = some i)
    (hj : Scalar.positive (t.slack.get j) = false) : t.IsTight work i j := by
  obtain ⟨_, _, x, hx, _⟩ := hv.grown.label i j hlabel
  have hle := h.label i j x hlabel hx
  rw [leeway_exact, add_zero, max_eq_right (nonpos_of_not_positive (h.slack i j hlabel).1 hj), add_zero] at hle
  exact h.isTight_of_le hwork hv.proper hx hle

/-- Matched edges are tight. -/
theorem State.Near.isTight_of_mate {i j : Fin n} (hij : t.rowMate.get i = some j) : t.IsTight work i j :=
  (h.invariant hwork hv.proper hv.grown.agree hv.grown.mate_edge).tight i j hij

/-- The labels spell a path to every tight column that a row labels that hangs in a tree. -/
theorem State.Near.exists_spells {k : ℕ} {i j : Fin n} (hi : t.Rooted k i) (hlabel : t.colLabel.get j = some i)
    (hj : Scalar.positive (t.slack.get j) = false) : ∃ path, Spells work t j path := by
  induction hi generalizing j with
  | root hroot => exact ⟨_, .root hlabel hroot ((hv.grown.root_iff _).1 hroot) (h.isTight_of_label hwork hv hlabel hj)⟩
  | @child k a i b _ hvia hab ih =>
    obtain ⟨hmate, hb⟩ := hv.grown.via i b hvia
    obtain ⟨path, hpath⟩ := ih hab hb
    have hne : b ≠ j := by
      rintro rfl
      exact (hv.grown.label i b hlabel).2.1 hmate
    exact ⟨_, hpath.via hlabel hvia hmate hne (h.isTight_of_mate hwork hv hmate) (h.isTight_of_label hwork hv hlabel hj)⟩

/-- The labels spell a path to every tight column. -/
theorem State.Near.spells_of_tight {j : Fin n} (hj : Scalar.positive (t.slack.get j) = false) : ∃ path, Spells work t j path := by
  obtain ⟨i, hlabel⟩ := hv.grown.exists_label hj
  obtain ⟨k, hk⟩ := hv.grown.rooted i (hv.grown.label i j hlabel).1
  exact h.exists_spells hwork hv hk hlabel hj

/-- Alternating paths of tight edges lead to the tight columns. -/
theorem State.Near.reaches_of_tight {j : Fin n} (hj : Scalar.positive (t.slack.get j) = false) : Reaches work t (.inr j) := by
  obtain ⟨path, hpath⟩ := h.spells_of_tight hwork hv hj
  exact hpath.reaches hv.grown.agree

/-- Alternating paths of tight edges lead to the rows reached. -/
theorem State.Near.reaches_of_reached {i : Fin n} (hi : t.Reached i) : Reaches work t (.inl i) := by
  cases hlabel : t.rowLabel.get i with
  | unreached => exact absurd hlabel hi
  | root => exact .root ((hv.grown.root_iff i).1 hlabel)
  | via j =>
    obtain ⟨hmate, hj⟩ := hv.grown.via i j hlabel
    exact .back (h.reaches_of_tight hwork hv hj) ((hv.grown.agree i j).1 hmate)

omit hwork in
/-- When nothing is left to search, a tight edge from a row reached leads to a tight column, unless it is matched: the row has been
scanned, if only before an update, and the slack of the column has kept up with that of the edge. -/
theorem State.Near.tight_of_isTight (hex : Exhausted t) {i j : Fin n} (hi : t.Reached i) (hmate : t.rowMate.get i ≠ some j)
    (htight : t.IsTight work i j) : Scalar.positive (t.slack.get j) = false := by
  by_contra hpos
  rw [Bool.not_eq_false] at hpos
  obtain ⟨hfin, hle⟩ := h.scanned i j _ hi (hex.not_mem_rowStack i) hpos hmate htight (Exact.le_refl _)
  have hslack := (positive_iff hfin).1 hpos
  have hsum := (Exact.value_add (hv.proper.rowDual i).1 (h.colDual j).1).2
  rw [leeway_exact, add_zero, hsum, sub_self] at hle
  exact absurd hle (not_le.2 hslack)

/-- When nothing is left to search, the rows reached and the tight columns are those that alternating paths of tight edges lead to. -/
theorem State.Near.reaches_iff (hex : Exhausted t) :
    (∀ i, t.Reached i ↔ Reaches work t (.inl i)) ∧
      ∀ j, Scalar.positive (t.slack.get j) = false ↔ Reaches work t (.inr j) := by
  have hnode : ∀ node, Reaches work t node →
      node.elim t.Reached fun j => Scalar.positive (t.slack.get j) = false := by
    intro node hnode
    induction hnode with
    | @root i hfree =>
      change t.rowLabel.get i ≠ .unreached
      rw [(hv.grown.root_iff i).2 hfree]
      exact nofun
    | forth _ hmate htight ih => exact h.tight_of_isTight hv hex ih hmate htight
    | @back i j _ hmate ih =>
      obtain ⟨a, ha, hreached⟩ := hv.grown.visited j ih (by rw [hex.colStack_eq]; exact List.not_mem_nil)
      obtain rfl := Option.some.inj (ha.symm.trans hmate)
      exact hreached
  exact ⟨fun i => ⟨h.reaches_of_reached hwork hv, hnode (.inl i)⟩, fun j => ⟨h.reaches_of_tight hwork hv, hnode (.inr j)⟩⟩

end Searches

/-- What is right about a search from the state `s` that ends in the state `t`. It changes no mate and no dual variable. If it finds a
column, this is not matched, and the labels spell a path to it that meets no node twice. If it finds none, the rows reached and the
tight columns are those that alternating paths of tight edges lead to, and none of these leads to a column that is not matched. -/
structure State.SearchedExactly (work : Table Exact n) (s : State Exact n) (found : Option (Fin n)) (t : State Exact n) : Prop where
  framed : Framed s t
  found_some : ∀ j, found = some j → t.colMate.get j = none ∧
    ∃ path, Spells work t j path ∧ (path.map Prod.fst).Nodup ∧ (path.map Prod.snd).Nodup
  found_none : found = none → (∀ j, t.colMate.get j = none → ¬Reaches work t (.inr j)) ∧
    (∀ i, t.Reached i ↔ Reaches work t (.inl i)) ∧ ∀ j, Scalar.positive (t.slack.get j) = false ↔ Reaches work t (.inr j)

/-- Every search is exact. -/
theorem Stage.searchedExactly (hwork : Between work least greatest) (hleast : 0 ≤ least) (hgreatest : 0 ≤ greatest) (hn : 0 < n)
    {effort : Effort} (hstage : Stage work s effort) {found : Option (Fin n)} (hsearch : s.search work = (found, t)) :
    State.SearchedExactly work s found t := by
  obtain ⟨r, hst, hout⟩ := exists_outcome work s
  have hv := (hstage.valid hwork hgreatest hn).of_steps hst
  have hframed := framed_of_steps hst
  obtain ⟨spent, hnear⟩ := hstage.near_of_steps hwork hleast hn (steady_exact hgreatest _) hst
  rw [hsearch] at hout
  cases hout with
  | @found j cols hrows hcols hmate =>
    refine ⟨⟨hframed.rowMate_eq, hframed.colMate_eq, hframed.rowDual_eq, hframed.colDual_eq, hframed.reached, hframed.tight⟩,
      fun k hk => ?_, nofun⟩
    obtain rfl := Option.some.inj hk
    -- Only the stack of the columns has changed since the last step.
    obtain ⟨path, hpath⟩ := hnear.spells_of_tight hwork hv (hv.grown.colStack j (hcols ▸ List.mem_cons_self))
    exact ⟨hmate, path, hpath.with_colStack cols, hpath.nodup⟩
  | exhausted hrows hcols =>
    obtain ⟨hrow, hcol⟩ := hnear.reaches_iff hwork hv ⟨hrows, hcols⟩
    refine ⟨hframed, nofun, fun _ => ⟨fun j hj hreaches => ?_, hrow, hcol⟩⟩
    have hpos := hv.grown.positive_slack ⟨hrows, hcols⟩ hj
    rw [(hcol j).2 hreaches] at hpos
    exact Bool.noConfusion hpos

/-- If exact weights pass the range check, every search of the call is exact, whether it starts with new trees or goes on with old ones
after dual updates. -/
theorem solve_searchedExactly (m : PrimalDual Exact n) {goal : Goal} {w : Weights Exact} (h : w.n = n)
    {least greatest : Exact} (hbounds : bounds? goal w = some (least, greatest))
    (hshift : isShiftable least greatest (offsetOf w least greatest) = true) :
    let work := shift goal (offsetOf w least greatest) w h
    m.solve goal w = searchTable goal (offsetOf w least greatest) work ∧
      ∀ s effort found t, Stage work s effort → s.search work = (found, t) → State.SearchedExactly work s found t := by
  intro work
  obtain ⟨hwork, _, hpos, hle⟩ := between_shift hbounds hshift h
  have hn : 0 < n := h ▸ pos_of_bounds hbounds
  exact ⟨solve_eq_searchTable m h hn hbounds hshift, fun s effort found t hstage =>
    hstage.searchedExactly hwork hpos.le (hpos.le.trans hle) hn⟩

/-- With the weights `3`, `1` and `2` the second search finds nothing, and the third one goes on with its trees after a dual update and
finds the second column. -/
theorem solve_searchedExactly_two :
    let w : Weights Exact := ⟨2, #v[some (.finite 3), some (.finite 1), some (.finite 2), none]⟩
    let offset := offsetOf w (.finite 1) (.finite 3)
    let work : Table Exact 2 := shift .max offset w rfl
    let first := (State.start work).round work ⟨0, 0⟩
    let second := first.state.round work first.effort
    bounds? .max w = some (.finite 1, .finite 3) ∧ isShiftable (.finite 1) (.finite 3) offset = true ∧
      (first.state.search work).1 = none ∧ ¬Reaches work (first.state.search work).2 (.inr 1) ∧
      second.effort.updates = 1 ∧ (second.state.search work).1 = some 1 ∧
      ∃ path, Spells work (second.state.search work).2 1 path := by
  intro w offset work first second
  have hbounds : bounds? .max w = some (.finite 1, .finite 3) := by decide +kernel
  have hshift : isShiftable (.finite 1) (.finite 3) offset = true := by decide +kernel
  have hexact := (solve_searchedExactly (new 2) rfl hbounds hshift).2
  have hfirst : Stage work first.state first.effort := .next .start (by decide +kernel)
  have hsecond : Stage work second.state second.effort := hfirst.next (by decide +kernel)
  have hnone : (first.state.search work).1 = none := by decide +kernel
  have hsome : (second.state.search work).1 = some 1 := by decide +kernel
  have hupdate : second.effort.updates = 1 := by decide +kernel
  obtain ⟨hunreached, _⟩ := (hexact _ _ _ _ hfirst (Prod.eta _).symm).found_none hnone
  obtain ⟨_, path, hpath, _⟩ := (hexact _ _ _ _ hsecond (Prod.eta _).symm).found_some 1 hsome
  exact ⟨hbounds, hshift, hnone, hunreached 1 (by decide +kernel), hupdate, hsome, path, hpath⟩

end PerfectMatching.PrimalDual
