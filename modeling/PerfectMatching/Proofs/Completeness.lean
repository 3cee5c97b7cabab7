import PerfectMatching.Matching
import PerfectMatching.Proofs.Calls
import PerfectMatching.Proofs.Perfect
import PerfectMatching.Proofs.Search.AllEdges
import PerfectMatching.Proofs.Search.Verdict

/-!
# When a search finds what there is

If the shifted weights keep their margin in spite of rounding (`KeepsMargin`), or if no edge is forbidden, a call whose weights
pass the range check succeeds exactly if there is a perfect matching, and finds none exactly if there is none (`solve_iff`).
-/

namespace PerfectMatching

/-- If no edge is forbidden, every edge is allowed. -/
theorem Weights.exists_edge {α : Type} {w : Weights α} (h : w.anyForbidden = false) (i j : Fin w.n) :
    ∃ x, w.edge i j = some x := by
  rw [anyForbidden, List.any_eq_false] at h
  have hmem : w.edge i j ∈ w.entries.toList := by
    rw [Vector.mem_toList_iff]
    exact Vector.getElem_mem _
  have := h _ hmem
  rwa [Option.isNone_iff_eq_none, ← ne_eq, Option.ne_none_iff_exists'] at this

namespace PrimalDual

open LawfulScalar Relation State

variable {α : Type} [Scalar α] {n : ℕ}

section Shift

variable {goal : Goal} {offset : α} {w : Weights α} {least greatest : α}

/-- An edge of the shifted table is allowed. -/
theorem exists_edge_of_hasEdge (h : w.n = n) {i j : Fin n} (he : HasEdge (shift goal offset w h) i j) :
    ∃ x, w.edge (i.cast h.symm) (j.cast h.symm) = some x := by
  obtain ⟨y, hy, _⟩ := he
  rw [get_shift] at hy
  obtain ⟨x, hx, _⟩ := Option.map_eq_some_iff.1 hy
  exact ⟨x, hx⟩

variable [LawfulScalar α]

/-- An allowed edge of finite weight is an edge of the shifted table. -/
theorem hasEdge_shift (hfinite : w.IsFinite) (hbounds : bounds? goal w = some (least, greatest))
    (hshift : isShiftable least greatest offset = true) (h : w.n = n) {i j : Fin n} {x : α}
    (hx : w.edge (i.cast h.symm) (j.cast h.symm) = some x) : HasEdge (shift goal offset w h) i j := by
  have hmem := Weights.mem_allowed_of_edge hx
  have hfin : Scalar.isFinite (goal.signed x) = true := by
    rw [isFinite_signed]
    exact hfinite x hmem
  have hsub := isFinite_sub_offset_of_defined hbounds hshift hmem (le_self_of_isFinite hfin)
  exact ⟨_, by rw [get_shift, hx, Option.map_some], le_self_of_isFinite hsub.1⟩

/-- There is a perfect matching exactly if there is one in the shifted table. -/
theorem hasPerfect_iff (hfinite : w.IsFinite) (hbounds : bounds? goal w = some (least, greatest))
    (hshift : isShiftable least greatest offset = true) (h : w.n = n) :
    w.HasPerfect ↔ ∃ e : Equiv.Perm (Fin n), ∀ i, HasEdge (shift goal offset w h) i (e i) := by
  subst h
  constructor
  · rintro ⟨columns, hperfect⟩
    obtain ⟨e, _, hedge⟩ := hperfect.exists_perm
    refine ⟨e, fun i => ?_⟩
    obtain ⟨x, hx⟩ := hedge i
    exact hasEdge_shift hfinite hbounds hshift rfl hx
  · rintro ⟨e, hedge⟩
    exact ⟨columnsOf e, Weights.isPerfect_columnsOf fun i => exists_edge_of_hasEdge rfl (hedge i)⟩

end Shift

variable [LawfulScalar α] {work : Table α n} {least greatest : ℚ}

/-- In spite of rounding, `n` least weights outweigh `n - 1` greatest ones. -/
structure KeepsMargin (α : Type) [Scalar α] [LawfulScalar α] (n : ℕ) (least greatest : ℚ) : Prop where
  steady : Steady α greatest (n * (n + 1) / 2)
  outweighs : (n - 1) * greatest + (2 * n - 1) * leeway α greatest (n * (n + 1) / 2) < n * least

/-- With more updates there is more leeway. -/
theorem leeway_mono {greatest : ℚ} (h : 0 ≤ greatest) {fewer updates : ℕ} (hle : fewer ≤ updates) :
    leeway α greatest fewer ≤ leeway α greatest updates := by
  have hdrift : 0 ≤ drift α greatest := mul_nonneg unit_nonneg (by linarith)
  have hcast : (fewer : ℚ) ≤ updates := Nat.cast_le.2 hle
  exact mul_le_mul_of_nonneg_left (by linarith) (by linarith)

/-- If a search that is steady is given up although there is a perfect matching, the weights have lost their margin. -/
theorem Stage.abandoned_le {s t : State α n} {effort : Effort} (hwork : Between work least greatest) (hleast : 0 ≤ least)
    (hn : 0 < n) (hsteady : Steady α greatest (n * (n + 1) / 2)) (hstage : Stage work s effort)
    (hst : ReflTransGen (Step work) s t) (hex : Exhausted t) (hlt : Scalar.lt t.leastDual t.leastSlack = true)
    {e : Equiv.Perm (Fin n)} (he : ∀ i, HasEdge work i (e i)) :
    n * least ≤ (n - 1) * greatest + (2 * n - 1) * leeway α greatest (n * (n + 1) / 2) := by
  have hv := hstage.valid hwork hsteady.nonneg hn
  have hupdates := hstage.updates_le hwork hsteady.nonneg hn
  obtain ⟨spent, hnear⟩ := hstage.near_of_steps hwork hleast hn (hsteady.of_le hupdates) hst
  have hmono := leeway_mono (α := α) hsteady.nonneg hupdates
  have hnonneg : 0 ≤ leeway α greatest effort.updates := by
    have := leeway_mono (α := α) hsteady.nonneg (Nat.zero_le effort.updates)
    have hdrift := hsteady.drift_nonneg
    rw [leeway, Nat.cast_zero] at this
    linarith
  have hle := hnear.abandoned_le (hv.of_steps hst) hex hwork hnonneg hlt e he
  have hcast : (1 : ℚ) ≤ n := Nat.one_le_cast.2 hn
  nlinarith [mul_le_mul_of_nonneg_left hmono (show (0 : ℚ) ≤ 2 * n - 1 by linarith)]

/-- If there is a perfect matching, a search finds one, unless an edge is forbidden and the weights have lost their margin. -/
theorem Ended.outcome_eq_ok {offset : α} {goal : Goal} {r : Solved α (PrimalDual α n)} (hr : Ended work offset goal r)
    (hwork : Between work least greatest) (hleast : 0 ≤ least) (hgreatest : 0 ≤ greatest) (hn : 0 < n)
    (hkeeps : (∀ i j, HasEdge work i j) ∨ KeepsMargin α n least greatest) {e : Equiv.Perm (Fin n)}
    (he : ∀ i, HasEdge work i (e i)) : r.outcome = .ok () := by
  cases hr with
  | perfect _ _ _ _ _ hok _ _ _ => exact hok
  | abandoned hstage hst hex hlt _ _ _ =>
    rcases hkeeps with hall | hkeeps
    · rw [hstage.not_abandoned hwork hleast hgreatest hn hall hst hex] at hlt
      exact nomatch hlt
    · exact absurd (hstage.abandoned_le hwork hleast hn hkeeps.steady hst hex hlt he) (not_le.2 hkeeps.outweighs)

/-- If no edge is forbidden, or the weights keep their margin, a call whose weights pass the range check succeeds exactly if there
is a perfect matching, and finds none exactly if there is none. -/
theorem solve_iff (m : PrimalDual α n) {goal : Goal} {w : Weights α} (h : w.n = n) (hn : 0 < n) (hfinite : w.IsFinite)
    {least greatest : α} (hbounds : bounds? goal w = some (least, greatest))
    (hshift : isShiftable least greatest (offsetOf w least greatest) = true)
    (hkeeps : w.anyForbidden = false ∨ KeepsMargin α n (value (least - offsetOf w least greatest))
      (value (greatest - offsetOf w least greatest))) :
    ((m.solve goal w).outcome = .ok () ↔ w.HasPerfect) ∧
      ((∃ k, (m.solve goal w).outcome = .error (.noPerfectMatching k n)) ↔ ¬w.HasPerfect) := by
  obtain ⟨hwork, _, hpos, hle⟩ := between_shift hbounds hshift h
  have hended := ended_searchTable hwork (hpos.le.trans hle) hn goal (offsetOf w least greatest)
  rw [← solve_eq_searchTable m h hn hbounds hshift] at hended
  have hkeeps' : (∀ i j, HasEdge (shift goal (offsetOf w least greatest) w h) i j) ∨ KeepsMargin α n
      (value (least - offsetOf w least greatest)) (value (greatest - offsetOf w least greatest)) := by
    refine hkeeps.imp_left fun hall i j => ?_
    obtain ⟨x, hx⟩ := Weights.exists_edge hall (i.cast h.symm) (j.cast h.symm)
    exact hasEdge_shift hfinite hbounds hshift h hx
  have hperfect : w.HasPerfect → (m.solve goal w).outcome = .ok () := by
    intro hperfect
    obtain ⟨e, he⟩ := (hasPerfect_iff hfinite hbounds hshift h).1 hperfect
    exact hended.outcome_eq_ok hwork hpos.le (hpos.le.trans hle) hn hkeeps' he
  rw [hasPerfect_iff hfinite hbounds hshift h] at hperfect ⊢
  generalize m.solve goal w = r at hended hperfect
  cases hended with
  | @perfect s t u effort j e weight hstage hst hr hrow _ hok _ _ _ =>
    have hedge : ∃ e : Equiv.Perm (Fin n), ∀ i, HasEdge (shift goal (offsetOf w least greatest) w h) i (e i) :=
      ⟨e, fun i => hr.hasEdge ((hstage.valid hwork (hpos.le.trans hle) hn).of_steps hst).grown i (e i) (hrow i)⟩
    refine ⟨iff_of_true hok hedge, iff_of_false ?_ (not_not_intro hedge)⟩
    rintro ⟨k, herror⟩
    exact nomatch hok.symm.trans herror
  | abandoned _ _ _ _ herror _ _ =>
    have hok : r.outcome ≠ .ok () := fun hok => nomatch hok.symm.trans herror
    exact ⟨iff_of_false hok fun hedge => hok (hperfect hedge), iff_of_true ⟨_, herror⟩ fun hedge => hok (hperfect hedge)⟩

end PrimalDual

end PerfectMatching
