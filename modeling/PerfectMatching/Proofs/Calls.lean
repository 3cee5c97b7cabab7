import PerfectMatching.Proofs.Publish
import PerfectMatching.Proofs.Search.Budget
import PerfectMatching.Proofs.Shift

/-!
# The ways a call can end

A call refuses its weights, or searches the shifted table, and a search finds a perfect matching or gives up (`Ended`). Main
statements: a search of a table whose defined weights are finite ends in one of these two ways (`ended_searchTable`), and a call
in one of five (`called_solve`); none of them contradicts the bookkeeping.
-/

namespace PerfectMatching.PrimalDual

open LawfulScalar Relation State

variable {α : Type} [Scalar α] {n : ℕ}

/-- How a search ends: in the last round the search ends at a column that is not matched, and all rows are matched when the path
to it has been flipped, or it finds nothing and is given up. -/
inductive Ended (work : Table α n) (offset : α) (goal : Goal) (r : Solved α (PrimalDual α n)) : Prop where
  | perfect {s t u : State α n} {effort : Effort} {j : Fin n} {e : Equiv.Perm (Fin n)} {weight : Fin n → α} :
      Stage work s effort → ReflTransGen (Step work) s t → Reaching t j u →
      (∀ i, u.rowMate.get i = some (e i)) → (∀ i, (work.get i).get (e i) = some (weight i)) →
      r.outcome = .ok () → r.matcher.effort = ⟨effort.augmentations + 1, effort.updates⟩ → r.matcher.state = u.reseed →
      r.matcher.result =
        ⟨columnsOf e, columnsOf e.symm, Scalar.sum ((List.finRange n).map fun i => goal.signed (weight i + offset))⟩ →
      Ended work offset goal r
  | abandoned {s t : State α n} {effort : Effort} :
      Stage work s effort → ReflTransGen (Step work) s t → Exhausted t → Scalar.lt t.leastDual t.leastSlack = true →
      r.outcome = .error (.noPerfectMatching t.matched n) → r.matcher.effort = effort → r.matcher.state = t →
      Ended work offset goal r

/-- How a call ends: the weights are refused, or the table of shifted weights is searched. -/
inductive Called (m : PrimalDual α n) (goal : Goal) (w : Weights α) : Solved α (PrimalDual α n) → Prop where
  | mismatched : w.n ≠ n → Called m goal w ⟨.error (.sizeMismatch n w.n), m, []⟩
  | trivial : w.n = n → n = 0 → Called m goal w ⟨.ok (), m.cleared, []⟩
  | noEdge : w.n = n → 0 < n → w.allowed = [] → Called m goal w ⟨.error .noEdge, m.cleared, []⟩
  | unshiftable {least greatest : α} : w.n = n → 0 < n → bounds? goal w = some (least, greatest) →
      isShiftable least greatest (offsetOf w least greatest) = false →
      Called m goal w
        ⟨.error (.unshiftable (Scalar.min (goal.signed least) (goal.signed greatest))
          (Scalar.max (goal.signed least) (goal.signed greatest))), m.cleared, []⟩
  | searched {least greatest : α} (h : w.n = n) : 0 < n → bounds? goal w = some (least, greatest) →
      isShiftable least greatest (offsetOf w least greatest) = true →
      Ended (shift goal (offsetOf w least greatest) w h) (offsetOf w least greatest) goal
        (searchTable goal (offsetOf w least greatest) (shift goal (offsetOf w least greatest) w h)) →
      Called m goal w (searchTable goal (offsetOf w least greatest) (shift goal (offsetOf w least greatest) w h))

/-- A call whose weights pass the range check searches the shifted table. -/
theorem solve_eq_searchTable (m : PrimalDual α n) {goal : Goal} {w : Weights α} (h : w.n = n) (hn : 0 < n)
    {least greatest : α} (hbounds : bounds? goal w = some (least, greatest))
    (hshift : isShiftable least greatest (offsetOf w least greatest) = true) :
    m.solve goal w =
      searchTable goal (offsetOf w least greatest) (shift goal (offsetOf w least greatest) w h) := by
  simp only [solve, dif_pos h, if_neg hn.ne', hbounds, hshift, if_true, search_load_cleared]

/-- What a call that has searched a table leaves behind besides its result. -/
structure Searched (work : Table α n) (offset : α) (goal : Goal) (m : PrimalDual α n) : Prop where
  work_eq : m.work = work
  offset_eq : m.offset = offset
  goal_eq : m.goal = goal
  state_eq : m.state = (complete work).state
  effort_eq : m.effort = (complete work).effort

/-- A call that searches a table leaves the table, the shift, the goal and the state in which the search has ended. -/
theorem searched_searchTable (goal : Goal) (offset : α) (work : Table α n) :
    Searched work offset goal (searchTable goal offset work).matcher := by
  simp only [searchTable_eq, conclude]
  split
  · split <;> exact ⟨rfl, rfl, rfl, rfl, rfl⟩
  all_goals exact ⟨rfl, rfl, rfl, rfl, rfl⟩

variable [LawfulScalar α]

/-- A search of a table whose defined weights are finite finds a perfect matching or is given up. -/
theorem ended_searchTable {work : Table α n} {least greatest : ℚ} (hwork : Between work least greatest)
    (hgreatest : 0 ≤ greatest) (hn : 0 < n) (goal : Goal) (offset : α) :
    Ended work offset goal (searchTable goal offset work) := by
  obtain ⟨s, effort, p, hstage, hturn, hlast, hstate, heffort, hverdict⟩ := exists_last_round hwork hgreatest hn
  have hvalid := hstage.valid hwork hgreatest hn
  cases hturn with
  | augmented _ _ _ => exact absurd rfl hlast
  | relaxed _ _ _ => exact absurd rfl hlast
  | @completed t u j events hst hr hall =>
    obtain ⟨e, hrow, hcol⟩ := exists_perm hr.flipped.agree hall
    have hedge : ∀ i, ∃ x, (work.get i).get (e i) = some x := by
      intro i
      obtain ⟨x, hx, _⟩ := hr.hasEdge (hvalid.of_steps hst).grown i (e i) (hrow i)
      exact ⟨x, hx⟩
    choose weight hweight using hedge
    have hpublish := publish_eq (s := u.reseed) offset goal hrow hcol hweight
    have hsearch : searchTable goal offset work =
        ⟨.ok (), ⟨work, offset, goal, u.reseed, ⟨columnsOf e, columnsOf e.symm,
          Scalar.sum ((List.finRange n).map fun i => goal.signed (weight i + offset))⟩,
          ⟨effort.augmentations + 1, effort.updates⟩⟩, (complete work).events ++ [.searched n goal
            ⟨effort.augmentations + 1, effort.updates⟩
            (Scalar.sum ((List.finRange n).map fun i => goal.signed (weight i + offset)))]⟩ := by
      simp only [searchTable_eq, conclude, hverdict, hstate, heffort, hpublish]
    rw [hsearch]
    exact .perfect hstage hst hr hrow hweight rfl rfl rfl rfl
  | @abandoned t hst hex hlt =>
    have hsearch : searchTable goal offset work =
        ⟨.error (.noPerfectMatching t.matched n), ⟨work, offset, goal, t, .empty, effort⟩,
          (complete work).events ++ [.searchFailed n goal (.noPerfectMatching t.matched n)]⟩ := by
      simp only [searchTable_eq, conclude, hverdict, hstate, heffort]
    rw [hsearch]
    exact .abandoned hstage hst hex hlt rfl rfl rfl

/-- A call ends in one of five ways. -/
theorem called_solve (m : PrimalDual α n) (goal : Goal) (w : Weights α) : Called m goal w (m.solve goal w) := by
  unfold solve
  split
  · rename_i h
    split
    · rename_i hn
      exact .trivial h hn
    · rename_i hn
      have hn := Nat.pos_of_ne_zero hn
      cases hbounds : bounds? goal w with
      | none => exact .noEdge h hn (allowed_eq_nil hbounds)
      | some bounds =>
        obtain ⟨least, greatest⟩ := bounds
        simp only
        split
        · rename_i hshift
          obtain ⟨hbetween, _, hpos, hle⟩ := between_shift hbounds hshift h
          exact .searched h hn hbounds hshift (ended_searchTable hbetween (hpos.le.trans hle) hn _ _)
        · rename_i hshift
          exact .unshiftable h hn hbounds (Bool.eq_false_iff.2 hshift)
  · rename_i h
    exact .mismatched h

end PerfectMatching.PrimalDual
