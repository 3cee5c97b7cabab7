import PerfectMatching.Matching
import PerfectMatching.Proofs.Search.Lockstep
import PerfectMatching.Proofs.Shift

/-!
# Calls in lockstep

What a call computes besides the search are the bounds, the shift and the total of what it publishes. If a function commutes with these
and with the search, the image of a call is the call on the images of its weights (`PrimalDual.searchTable_map`).
-/

namespace PerfectMatching

variable {α β : Type} {n : ℕ}

/-! ## Weights -/

namespace Weights

/-- The allowed weights of a changed matrix. -/
theorem allowed_map (f : α → β) (w : Weights α) : (w.map f).allowed = w.allowed.map f := by
  rw [allowed, allowed, Weights.map, Vector.toList_map, List.filterMap_map, List.map_filterMap]
  rfl

/-- A changed matrix forbids the same edges. -/
theorem anyForbidden_map (f : α → β) (w : Weights α) : (w.map f).anyForbidden = w.anyForbidden := by
  simp [anyForbidden, Weights.map]

/-- A changed matrix allows the same edges. -/
theorem allows_map (f : α → β) (w : Weights α) (i j : ℕ) : (w.map f).Allows i j ↔ w.Allows i j := by
  unfold Allows
  refine exists_congr fun hi => exists_congr fun hj => ?_
  have hedge := congrArg Option.isSome (edge_map f w ⟨i, hi⟩ ⟨j, hj⟩)
  rw [Option.isSome_map] at hedge
  exact Bool.eq_iff_iff.1 hedge

/-- A changed matrix has the same perfect matchings. -/
theorem isPerfect_map (f : α → β) (w : Weights α) (columns : List ℕ) : (w.map f).IsPerfect columns ↔ w.IsPerfect columns :=
  ⟨fun h => ⟨h.perm, fun i hi => (allows_map f w _ _).1 (h.allowed i hi)⟩,
    fun h => ⟨h.perm, fun i hi => (allows_map f w _ _).2 (h.allowed i hi)⟩⟩

/-- A changed matrix has a perfect matching if the matrix has one. -/
theorem hasPerfect_map (f : α → β) (w : Weights α) : (w.map f).HasPerfect ↔ w.HasPerfect :=
  exists_congr (isPerfect_map f w)

end Weights

namespace Solved

/-- A changed call succeeds if the call does. -/
theorem map_eq_ok (f : α → β) (r : Solved α (PrimalDual α n)) : (r.map f).outcome = .ok () ↔ r.outcome = .ok () := by
  rw [Solved.map]
  cases r.outcome with
  | ok _ => simp [Except.mapError]
  | error _ => simp [Except.mapError]

/-- A changed call finds that there is no perfect matching if the call does. -/
theorem map_eq_noPerfectMatching (f : α → β) (r : Solved α (PrimalDual α n)) (k l : ℕ) :
    (r.map f).outcome = .error (.noPerfectMatching k l) ↔ r.outcome = .error (.noPerfectMatching k l) := by
  rw [Solved.map]
  cases r.outcome with
  | ok _ => exact ⟨nofun, nofun⟩
  | error cause => cases cause <;> simp [Except.mapError, Failure.map]

end Solved

namespace PrimalDual

open State

variable [Scalar α] [Scalar β] {f : α → β} {P : α → Prop} {goal : Goal} {w : Weights α} {work : Table α n} {offset : α}

/-! ## Shifting the weights -/

/-- The image of a weight as the goal sees it. -/
theorem signed_map (hneg : ∀ x, f (-x) = -f x) (goal : Goal) (x : α) : f (goal.signed x) = goal.signed (f x) := by
  cases goal with
  | max => rfl
  | min => exact hneg x

/-- The bounds of weights that are images of others, as the goals see them, are the images of their bounds. -/
theorem bounds_of_map {goal' : Goal} {w' : Weights β} {g : α → β}
    (hlist : w'.allowed.map goal'.signed = (w.allowed.map goal.signed).map g) (hw : ∀ x ∈ w.allowed, P (goal.signed x))
    (hmin : ∀ {x y}, P x → P y → g (Scalar.min x y) = Scalar.min (g x) (g y))
    (hmax : ∀ {x y}, P x → P y → g (Scalar.max x y) = Scalar.max (g x) (g y)) :
    bounds? goal' w' = (bounds? goal w).map (Prod.map g g) := by
  have hall : ∀ x ∈ w.allowed.map goal.signed, P x := by
    intro x hx
    obtain ⟨y, hy, rfl⟩ := List.mem_map.1 hx
    exact hw y hy
  unfold bounds?
  rw [hlist]
  generalize w.allowed.map goal.signed = signed at hall
  cases signed with
  | nil => rfl
  | cons x xs =>
    have hx := hall x List.mem_cons_self
    have hxs : ∀ y ∈ xs, P y := fun y hy => hall y (List.mem_cons_of_mem x hy)
    simp only [List.map_cons, Option.map_some, Prod.map, Faithful.map_foldl LawfulScalar.min_eq_or hmin hx hxs,
      Faithful.map_foldl LawfulScalar.max_eq_or hmax hx hxs]

/-- The bounds of a changed matrix. -/
theorem bounds_map (hf : Faithful f P) (hneg : ∀ x, f (-x) = -f x) (hw : ∀ x ∈ w.allowed, P (goal.signed x)) :
    bounds? goal (w.map f) = (bounds? goal w).map (Prod.map f f) := by
  refine bounds_of_map ?_ hw hf.map_min hf.map_max
  rw [Weights.allowed_map, List.map_map, List.map_map]
  exact List.map_congr_left fun x _ => (signed_map hneg goal x).symm

/-- The shifted table of a changed matrix. -/
theorem shift_map (hneg : ∀ x, f (-x) = -f x) (h : w.n = n) (h' : (w.map f).n = n)
    (hsub : ∀ x ∈ w.allowed, f (goal.signed x - offset) = f (goal.signed x) - f offset) :
    mapTable f (shift goal offset w h) = shift goal (f offset) (w.map f) h' := by
  refine Vector.ext fun i hi => Vector.ext fun j hj => ?_
  change ((mapTable f (shift goal offset w h)).get ⟨i, hi⟩).get ⟨j, hj⟩ =
    ((shift goal (f offset) (w.map f) h').get ⟨i, hi⟩).get ⟨j, hj⟩
  have hedge := Weights.edge_map f w (Fin.cast h.symm ⟨i, hi⟩) (Fin.cast h.symm ⟨j, hj⟩)
  rw [get_mapTable, get_shift, get_shift]
  refine Eq.trans ?_ (congrArg (Option.map fun x => goal.signed x - f offset) hedge.symm)
  cases hx : w.edge (Fin.cast h.symm ⟨i, hi⟩) (Fin.cast h.symm ⟨j, hj⟩) with
  | none => rfl
  | some x => exact congrArg some ((hsub x (Weights.mem_allowed_of_edge hx)).trans (by rw [signed_map hneg]))

/-! ## Publishing a matching -/

omit [Scalar α] [Scalar β] in
/-- The images of results, if all of them are there. -/
theorem mapM_map {γ : Type} {result : γ → Option α} {result' : γ → Option β} (h : ∀ x, result' x = (result x).map f)
    (l : List γ) : l.mapM result' = (l.mapM result).map (List.map f) := by
  induction l with
  | nil => rfl
  | cons x l ih =>
    rw [List.mapM_cons, List.mapM_cons, ih, h]
    cases result x with
    | none => rfl
    | some y => cases l.mapM result <;> rfl

omit [Scalar α] in
/-- If all results are there, each of them is a result, and there are as many of them. -/
theorem of_mapM {γ : Type} {result : γ → Option α} {l : List γ} {ys : List α} (h : l.mapM result = some ys) :
    ys.length = l.length ∧ ∀ y ∈ ys, ∃ x, result x = some y := by
  induction l generalizing ys with
  | nil =>
    obtain rfl : [] = ys := Option.some.inj h
    exact ⟨rfl, nofun⟩
  | cons x l ih =>
    rw [List.mapM_cons] at h
    obtain ⟨y, hy, h⟩ := Option.bind_eq_some_iff.1 h
    obtain ⟨ys', hys, h⟩ := Option.bind_eq_some_iff.1 h
    obtain rfl : y :: ys' = ys := Option.some.inj h
    obtain ⟨hlength, hall⟩ := ih hys
    refine ⟨congrArg Nat.succ hlength, fun z hz => ?_⟩
    rcases List.mem_cons.1 hz with rfl | hz
    · exact ⟨x, hy⟩
    · exact hall z hz

/-- The total of a matching in a changed table, if the function commutes with the sums of as many weights as there are rows. -/
theorem unshiftedTotal_map {Q : α → Prop}
    (hentry : ∀ i j, unshifted? (mapTable f work) (f offset) goal i j = (unshifted? work offset goal i j).map f)
    (hQ : ∀ i j x, unshifted? work offset goal i j = some x → Q x)
    (hsum : ∀ xs : List α, xs.length ≤ n → (∀ x ∈ xs, Q x) → f (Scalar.sum xs) = Scalar.sum (xs.map f)) (mates : List (Fin n)) :
    unshiftedTotal? (mapTable f work) (f offset) goal mates = (unshiftedTotal? work offset goal mates).map f := by
  have hlength : ((List.finRange n).zip mates).length ≤ n := by simp
  unfold unshiftedTotal?
  generalize (List.finRange n).zip mates = edges at hlength
  rw [mapM_map fun e : Fin n × Fin n => hentry e.1 e.2]
  cases hxs : edges.mapM fun e => unshifted? work offset goal e.1 e.2 with
  | none => rfl
  | some xs =>
    obtain ⟨hlen, hall⟩ := of_mapM hxs
    refine congrArg some (hsum xs (hlen ▸ hlength) fun x hx => ?_).symm
    obtain ⟨e, he⟩ := hall x hx
    exact hQ e.1 e.2 x he

/-- A matching published from a changed table. -/
theorem publish_map {s : State α n} (htotal : ∀ mates, unshiftedTotal? (mapTable f work) (f offset) goal mates =
      (unshiftedTotal? work offset goal mates).map f) :
    publish (mapTable f work) (f offset) goal (s.map f) = (publish work offset goal s).map (Assignment.map f) := by
  unfold publish
  rw [show (s.map f).rowMate = s.rowMate from rfl, show (s.map f).colMate = s.colMate from rfl]
  cases s.rowMate.toList.mapM id with
  | none => rfl
  | some source =>
    cases s.colMate.toList.mapM id with
    | none => rfl
    | some dest =>
      simp only [htotal]
      split
      · cases unshiftedTotal? work offset goal source with
        | none => rfl
        | some total => rfl
      · rfl

/-- The image of a call whose weights have been shifted. -/
theorem searchTable_map (hf : Faithful f P) (hcomplete : (complete work).map f = complete (mapTable f work))
    (htotal : ∀ mates, unshiftedTotal? (mapTable f work) (f offset) goal mates =
      (unshiftedTotal? work offset goal mates).map f) :
    (searchTable goal offset work).map f = searchTable goal (f offset) (mapTable f work) := by
  rw [searchTable_eq, searchTable_eq, ← hcomplete, conclude, conclude]
  generalize complete work = found
  obtain ⟨s, effort, verdict, events⟩ := found
  have hempty : (Assignment.empty : Assignment α).map f = Assignment.empty := by
    rw [Assignment.map, Assignment.empty, hf.map_zero]
    rfl
  cases verdict with
  | perfect =>
    simp only [Progress.map, publish_map htotal]
    cases publish work offset goal s with
    | ok result => simp [Solved.map, PrimalDual.map, Except.map, Except.mapError, Event.map, Assignment.map]
    | error cause => simp [Solved.map, PrimalDual.map, Except.map, Except.mapError, Failure.map, hempty]
  | infeasible =>
    simp [Progress.map, Solved.map, PrimalDual.map, Except.mapError, Failure.map, Event.map, hempty, matched, State.map]
  | broken cause => simp [Progress.map, Solved.map, PrimalDual.map, Except.mapError, Failure.map, Event.map, hempty]
  | unfinished => simp [Progress.map, Solved.map, PrimalDual.map, Except.mapError, Failure.map, Event.map, hempty]

end PrimalDual

end PerfectMatching
