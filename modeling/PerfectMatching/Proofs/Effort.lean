import PerfectMatching.Proofs.Binary64.Lawful
import PerfectMatching.Proofs.Calls

/-!
# The work of a call

On binary64 numbers, whatever is rounded, a call that searches ends before its bounds on the number of rounds and steps do, makes
at most `n * (n + 1) / 2` dual updates, and makes `n` augmentations exactly if it succeeds (`PrimalDual.solve_effort`).
-/

namespace PerfectMatching.PrimalDual

open LawfulScalar State

variable {n : ℕ}

/-- The work of a search: its augmentations tell how it ends, and its updates are bounded. -/
theorem Ended.effort {α : Type} [Scalar α] [LawfulScalar α] {work : Table α n} {offset : α} {goal : Goal} {least greatest : ℚ}
    (hwork : Between work least greatest) (hgreatest : 0 ≤ greatest) (hn : 0 < n) {r : Solved α (PrimalDual α n)}
    (hr : Ended work offset goal r) :
    r.matcher.effort.updates ≤ n * (n + 1) / 2 ∧
      ((r.outcome = .ok () ∧ r.matcher.effort.augmentations = n) ∨
        ∃ k, r.outcome = .error (.noPerfectMatching k n) ∧ r.matcher.effort.augmentations < n) := by
  cases hr with
  | @perfect s t u effort j e weight hstage hst hr' hrow _ hok heffort _ _ =>
    obtain ⟨hmatched, hupdates⟩ := hstage.spent hwork hgreatest hn
    have hcount : effort.augmentations + 1 = n := by
      have hflip := hr'.flipped.matched_eq
      rw [matched_eq fun i => by rw [hrow i]; exact nofun, matched_of_steps hst, hmatched] at hflip
      exact hflip.symm
    have htri : effort.augmentations * (effort.augmentations + 1) / 2 + n = n * (n + 1) / 2 := by
      rw [← hcount]
      exact (triangle_succ effort.augmentations).symm
    rw [heffort]
    exact ⟨by simp only; omega, Or.inl ⟨hok, hcount⟩⟩
  | @abandoned s t effort hstage hst _ _ herror heffort _ =>
    have hmatched := (hstage.spent hwork hgreatest hn).matched_eq
    have hlt := matched_lt (hstage.valid hwork hgreatest hn).unmatched
    rw [heffort]
    exact ⟨hstage.updates_le hwork hgreatest hn, Or.inr ⟨_, herror, by omega⟩⟩

/-- A call on binary64 weights that passes the range check and so searches the shifted table. More rounds than it may take and
more steps than a search may take change nothing, a search that finds no column has left nothing to do, and the call ends with one
of two verdicts; it makes at most `n * (n + 1) / 2` dual updates, and `n` augmentations exactly if it succeeds, fewer if it finds
that there is no perfect matching. While `k` rows are matched, it makes at most `k + 1` dual updates. -/
theorem solve_effort (m : PrimalDual Float n) (goal : Goal) (w : Weights Float) (h : w.n = n) (hn : 0 < n)
    {least greatest : Float} (hbounds : bounds? goal w = some (least, greatest))
    (hshift : isShiftable least greatest (offsetOf w least greatest) = true) :
    let work := shift goal (offsetOf w least greatest) w h
    let r := m.solve goal w
    (∀ k, rounds n ≤ k → (start work).run work k ⟨0, 0⟩ = complete work) ∧
      (∀ s : State Float n, ∀ k, s.pending ≤ k → s.searchFor work k = s.search work) ∧
      (∀ s t : State Float n, s.search work = (none, t) → t.rowStack = [] ∧ t.colStack = []) ∧
      (r.outcome = .ok () ∨ ∃ k, r.outcome = .error (.noPerfectMatching k n)) ∧
      r.matcher.effort.updates ≤ n * (n + 1) / 2 ∧
      (r.matcher.effort.augmentations = n ↔ r.outcome = .ok ()) ∧
      (r.matcher.effort.augmentations < n ↔ ∃ k, r.outcome = .error (.noPerfectMatching k n)) ∧
      ∀ s effort s' effort', Stage work s effort → Stage work s' effort' →
        effort'.augmentations = effort.augmentations →
          s.matched = effort.augmentations ∧ effort'.updates ≤ effort.updates + (effort.augmentations + 1) := by
  intro work r
  obtain ⟨hwork, _, hpos, hle⟩ := between_shift hbounds hshift h
  have hgreatest := hpos.le.trans hle
  have hr : r = searchTable goal (offsetOf w least greatest) work := solve_eq_searchTable m h hn hbounds hshift
  obtain ⟨hupdates, hend⟩ := (ended_searchTable hwork hgreatest hn goal (offsetOf w least greatest)).effort hwork hgreatest hn
  rw [← hr] at hupdates hend
  refine ⟨fun k hk => ?_, fun s k => searchFor_of_pending_le work, fun s t hsearch => ?_, ?_, hupdates, ?_, ?_, ?_⟩
  · exact Stage.start.run_eq hwork hgreatest hn ((bound_le_rounds n).trans hk) (bound_le_rounds n)
  · obtain ⟨_, hexhausted⟩ := exhausted_of_search hsearch
    exact ⟨hexhausted.rowStack_eq, hexhausted.colStack_eq⟩
  · exact hend.imp And.left fun ⟨k, herror, _⟩ => ⟨k, herror⟩
  · rcases hend with ⟨hok, haug⟩ | ⟨k, herror, haug⟩
    · exact iff_of_true haug hok
    · exact iff_of_false haug.ne (by rw [herror]; exact nofun)
  · rcases hend with ⟨hok, haug⟩ | ⟨k, herror, haug⟩
    · exact iff_of_false (by omega) (by rw [hok]; rintro ⟨_, h⟩; exact nomatch h)
    · exact iff_of_true haug ⟨k, herror⟩
  · intro s effort s' effort' hs hs' heq
    exact ⟨(hs.spent hwork hgreatest hn).matched_eq, hs.updates_le_of_augmentations_eq hwork hgreatest hn hs' heq⟩

/-- A call on a matrix of four equal weights succeeds with two augmentations. -/
theorem solve_effort_two :
    let w : Weights Float := ⟨2, Vector.replicate 4 (some (Float.ofBits 0x3ff0000000000000))⟩
    let r := (new 2 : PrimalDual Float 2).solve .max w
    r.outcome = .ok () ∧ r.matcher.effort.augmentations = 2 ∧ r.matcher.effort.updates ≤ 3 := by
  intro w r
  have hbounds : bounds? .max w = some (Float.ofBits 0x3ff0000000000000, Float.ofBits 0x3ff0000000000000) := by decide +kernel
  have hshift : isShiftable (Float.ofBits 0x3ff0000000000000) (Float.ofBits 0x3ff0000000000000)
      (offsetOf w (Float.ofBits 0x3ff0000000000000) (Float.ofBits 0x3ff0000000000000)) = true := by decide +kernel
  have hok : r.outcome = .ok () := by decide +kernel
  obtain ⟨_, _, _, _, hupdates, haug, _⟩ := solve_effort (new 2) .max w rfl two_pos hbounds hshift
  exact ⟨hok, haug.2 hok, hupdates⟩

end PerfectMatching.PrimalDual
