import PerfectMatching.Proofs.Calls
import PerfectMatching.Proofs.Enumeration
import PerfectMatching.Proofs.Lockstep
import PerfectMatching.Solver

/-!
# Comparing two calls

Two calls on related weights return the same verdict and the same matching, and only their totals differ, in a known way (`Agree`).

* **Searches of one table.** What is done with the goal and the shift is done after the search, to the weights of the matched edges,
  so searches of the same table agree whatever the goals and the shifts are (`PrimalDual.agree_searchTable`).
* **Enumerations.** A changed matrix has changed totals on the same permutations (`Weights.rel_total?_map`), and if these are compared
  alike, the same permutation is kept (`Enumeration.agree_solve`).
-/

namespace PerfectMatching

variable {α β : Type} {n : ℕ}

/-- Two calls end alike: both fail, with errors of which the first is what `E` makes of the second, and leave no result, or both
succeed with the same matching, and their totals are related by `R`. -/
inductive Agree [Scalar α] (E : Failure α → Failure α) (R : α → α → Prop) :
    Except (Failure α) Unit → Assignment α → Except (Failure α) Unit → Assignment α → Prop where
  | failed (e : Failure α) : Agree E R (.error (E e)) .empty (.error e) .empty
  | found (source dest : List ℕ) {x y : α} : R x y → Agree E R (.ok ()) ⟨source, dest, x⟩ (.ok ()) ⟨source, dest, y⟩

namespace Agree

variable [Scalar α] {E : Failure α → Failure α} {R : α → α → Prop} {outcome outcome' : Except (Failure α) Unit} {a a' : Assignment α}

/-- The first call returns what `E` makes of what the second one returns. -/
theorem outcome_eq (h : Agree E R outcome a outcome' a') : outcome = outcome'.mapError E := by
  cases h <;> rfl

/-- If the errors are the same, both calls return the same. -/
theorem outcome_eq_of_id (h : Agree id R outcome a outcome' a') : outcome = outcome' := by
  cases h <;> rfl

/-- Both calls return the same columns. -/
theorem source_eq (h : Agree E R outcome a outcome' a') : a.source = a'.source := by
  cases h <;> rfl

/-- Both calls return the same rows. -/
theorem dest_eq (h : Agree E R outcome a outcome' a') : a.dest = a'.dest := by
  cases h <;> rfl

/-- Calls that fail with the same error, which `E` leaves as it is. -/
theorem failed_of_eq {e : Failure α} (h : E e = e) : Agree E R (.error e) .empty (.error e) .empty := by
  have := Agree.failed (E := E) (R := R) e
  rwa [h] at this

/-- After a success the totals are related. -/
theorem weight_of_ok (h : Agree E R outcome a outcome' a') (hok : outcome = .ok ()) : R a.weight a'.weight := by
  cases h with
  | failed e => exact nomatch hok
  | found source dest hR => exact hR

/-- The totals are related in any case if zero is to itself, for after a failure both are zero. -/
theorem weight (h : Agree E R outcome a outcome' a') (hzero : R Scalar.zero Scalar.zero) : R a.weight a'.weight := by
  cases h with
  | failed e => exact hzero
  | found source dest hR => exact hR

/-- After a failure both totals are zero. -/
theorem weight_of_ne_ok (h : Agree E R outcome a outcome' a') (hne : outcome ≠ .ok ()) :
    a.weight = Scalar.zero ∧ a'.weight = Scalar.zero := by
  cases h with
  | failed e => exact ⟨rfl, rfl⟩
  | found source dest hR => exact absurd rfl hne

end Agree

/-! ## Searches of one table -/

namespace PrimalDual

variable [Scalar α] {work : Table α n}

/-- A changed matrix is shifted to the same table if the change and the goals and the shifts make up for each other. -/
theorem shift_map_eq {f : α → α} {w : Weights α} {goal goal' : Goal} {offset offset' : α} (h : w.n = n) (h' : (w.map f).n = n)
    (heq : ∀ x ∈ w.allowed, goal'.signed (f x) - offset' = goal.signed x - offset) :
    shift goal' offset' (w.map f) h' = shift goal offset w h := by
  refine Vector.ext fun i hi => Vector.ext fun j hj => ?_
  change ((shift goal' offset' (w.map f) h').get ⟨i, hi⟩).get ⟨j, hj⟩ = ((shift goal offset w h).get ⟨i, hi⟩).get ⟨j, hj⟩
  have hedge := Weights.edge_map f w (Fin.cast h.symm ⟨i, hi⟩) (Fin.cast h.symm ⟨j, hj⟩)
  rw [get_shift, get_shift]
  refine (congrArg (Option.map fun x => goal'.signed x - offset') hedge).trans ?_
  cases hx : w.edge (Fin.cast h.symm ⟨i, hi⟩) (Fin.cast h.symm ⟨j, hj⟩) with
  | none => rfl
  | some x => exact congrArg some (heq x (Weights.mem_allowed_of_edge hx))

/-- The shifted weights of the matched edges; none if one of them is forbidden. -/
def matchedWeights? (work : Table α n) (mates : List (Fin n)) : Option (List α) :=
  ((List.finRange n).zip mates).mapM fun e => (work.get e.1).get e.2

/-- The total of a matching is the sum of what its shifted weights are before the shift. -/
theorem unshiftedTotal?_eq (offset : α) (goal : Goal) (mates : List (Fin n)) :
    unshiftedTotal? work offset goal mates =
      (matchedWeights? work mates).map fun xs => Scalar.sum (xs.map fun x => goal.signed (x + offset)) := by
  have hmap : (((List.finRange n).zip mates).mapM fun e => unshifted? work offset goal e.1 e.2) =
      (matchedWeights? work mates).map (List.map fun x => goal.signed (x + offset)) := mapM_map (fun _ => rfl) _
  rw [unshiftedTotal?, hmap, Option.map_map]
  rfl

/-- A matching is published with any goal and any shift or with none. -/
theorem publish_cases (work : Table α n) (s : State α n) :
    (∃ cause, ∀ offset goal, publish work offset goal s = .error cause) ∨
      ∃ source dest, ∃ xs : List α, xs.length = n ∧ (∀ x ∈ xs, ∃ i j, (work.get i).get j = some x) ∧
        ∀ offset goal, publish work offset goal s =
          .ok ⟨source, dest, Scalar.sum (xs.map fun x => goal.signed (x + offset))⟩ := by
  unfold publish
  cases hsource : s.rowMate.toList.mapM id with
  | none => exact Or.inl ⟨_, fun _ _ => rfl⟩
  | some source =>
    cases s.colMate.toList.mapM id with
    | none => exact Or.inl ⟨_, fun _ _ => rfl⟩
    | some dest =>
      simp only [unshiftedTotal?_eq]
      split
      · cases hxs : matchedWeights? work source with
        | none => exact Or.inl ⟨_, fun _ _ => rfl⟩
        | some xs =>
          have hlength : source.length = n := by rw [(of_mapM hsource).1, Vector.length_toList]
          obtain ⟨hxslength, hall⟩ := of_mapM hxs
          refine Or.inr ⟨_, _, xs, ?_, fun x hx => ?_, fun _ _ => rfl⟩
          · rw [hxslength, List.length_zip, hlength, List.length_finRange, Nat.min_self]
          · obtain ⟨e, he⟩ := hall x hx
            exact ⟨e.1, e.2, he⟩
      · exact Or.inl ⟨_, fun _ _ => rfl⟩

/-- The searches of one table agree, whatever the goals and the shifts are. -/
theorem agree_searchTable {E : Failure α → Failure α} {R : α → α → Prop} {goal goal' : Goal} {offset offset' : α}
    (hE : ∀ e, (∀ x y, e ≠ .unshiftable x y) → E e = e)
    (hR : ∀ xs : List α, xs.length = n → (∀ x ∈ xs, ∃ i j, (work.get i).get j = some x) →
      R (Scalar.sum (xs.map fun x => goal.signed (x + offset))) (Scalar.sum (xs.map fun x => goal'.signed (x + offset')))) :
    Agree E R (searchTable goal offset work).outcome (searchTable goal offset work).matcher.result
      (searchTable goal' offset' work).outcome (searchTable goal' offset' work).matcher.result := by
  simp only [searchTable_eq, conclude]
  cases (complete work).verdict with
  | perfect =>
    rcases publish_cases work (complete work).state with ⟨cause, h⟩ | ⟨source, dest, xs, hlength, hentry, h⟩
    · simp only [h]
      exact .failed_of_eq (hE _ (by simp))
    · simp only [h]
      exact .found source dest (hR xs hlength hentry)
  | infeasible => exact .failed_of_eq (hE _ (by simp))
  | broken cause => exact .failed_of_eq (hE _ (by simp))
  | unfinished => exact .failed_of_eq (hE _ (by simp))

/-- Two matchers hold the same table and have searched it in the same way. -/
structure SameSearch (m m' : PrimalDual α n) : Prop where
  work_eq : m.work = m'.work
  state_eq : m.state = m'.state
  effort_eq : m.effort = m'.effort

/-- Searches of one table are the same search. -/
theorem sameSearch_searchTable (work : Table α n) (goal goal' : Goal) (offset offset' : α) :
    SameSearch (searchTable goal offset work).matcher (searchTable goal' offset' work).matcher := by
  have h := searched_searchTable goal offset work
  have h' := searched_searchTable goal' offset' work
  exact ⟨h.work_eq.trans h'.work_eq.symm, h.state_eq.trans h'.state_eq.symm, h.effort_eq.trans h'.effort_eq.symm⟩

omit [Scalar α] in
/-- The same search has the same dual variables. -/
theorem SameSearch.duals_eq {m m' : PrimalDual α n} (h : SameSearch m m') : m.duals = m'.duals := by
  rw [duals, duals, h.state_eq]

/-- The certificate is about the search and the matching, not about its total. -/
theorem SameSearch.certify_eq {m m' : PrimalDual α n} (h : SameSearch m m') (hsource : m.result.source = m'.result.source)
    (hdest : m.result.dest = m'.result.dest) : m.certify = m'.certify := by
  have hscale : m.scale = m'.scale := by rw [scale, scale, h.work_eq]
  have htolerance : m.tolerance = m'.tolerance := by rw [tolerance, tolerance, hscale]
  have hfeasible : m.isFeasible = m'.isFeasible := by
    funext tolerance
    rw [isFeasible, isFeasible, h.work_eq, h.state_eq]
  have hprimal : m.primalObjective = m'.primalObjective := by
    simp only [primalObjective, workAt, h.work_eq, hsource]
  simp only [certify, htolerance, h.duals_eq, hsource, hdest, hfeasible, hprimal]

end PrimalDual

/-! ## Totals of a changed matrix -/

namespace Weights

/-- A permutation uses as many allowed edges in a changed matrix. -/
theorem countAllowed_map (f : α → α) (w : Weights α) (columns : List ℕ) :
    Enumeration.countAllowed (w.map f) columns = Enumeration.countAllowed w columns := by
  refine List.countP_congr fun ⟨j, i⟩ _ => ?_
  simp only [get?_map]
  cases w.get? i j with
  | none => rfl
  | some entry => cases entry <;> rfl

variable [Scalar α] [Scalar β]

/-- Sums before and after a change of each weight, of allowed weights, as many as there are columns. -/
def SumsOf (f : α → β) (w : Weights α) (count : ℕ) (sum : α) (sum' : β) (x : α) (y : β) : Prop :=
  ∃ xs : List α, xs.length = count ∧ (∀ y ∈ xs, y ∈ w.allowed) ∧ x = xs.foldl (· + ·) sum ∧ y = (xs.map f).foldl (· + ·) sum'

/-- The totals of a list of columns before and after a change. -/
theorem rel_addTotal?_map (f : α → β) (w : Weights α) (columns : List ℕ) (sum : α) (sum' : β) (i : ℕ) :
    Option.Rel (SumsOf f w columns.length sum sum') (w.addTotal? sum i columns).join
      ((w.map f).addTotal? sum' i columns).join := by
  induction columns generalizing sum sum' i with
  | nil => exact .some ⟨[], rfl, nofun, rfl, rfl⟩
  | cons j columns ih =>
    rw [addTotal?, addTotal?, get?_map]
    cases hget : w.get? i j with
    | none => exact .none
    | some entry =>
      cases entry with
      | none => exact .none
      | some x =>
        have hnext := ih (sum + x) (sum' + f x) (i + 1)
        simp only [Option.map_some]
        generalize (w.addTotal? (sum + x) (i + 1) columns).join = total at hnext ⊢
        generalize ((w.map f).addTotal? (sum' + f x) (i + 1) columns).join = total' at hnext ⊢
        cases hnext with
        | none => exact .none
        | some h =>
          obtain ⟨xs, hlength, hallowed, htotal, htotal'⟩ := h
          refine .some ⟨x :: xs, congrArg Nat.succ hlength, fun y hy => ?_, htotal, htotal'⟩
          rcases List.mem_cons.1 hy with rfl | hy
          · exact mem_allowed_of_get? hget
          · exact hallowed y hy

/-- The totals of a permutation before and after a change of each weight. -/
def Totals (f : α → β) (w : Weights α) : α → β → Prop := SumsOf f w w.n (-Scalar.zero) (-Scalar.zero)

end Weights

/-! ## Enumerations -/

namespace Enumeration

variable [Scalar α] {f : α → α} {w : Weights α} {goal goal' : Goal}

/-- What is kept of the permutations for a matrix and for a changed one: the same permutation with related totals, and the same
number of allowed edges. -/
structure SameTally (R : α → α → Prop) (t t' : Tally α) : Prop where
  best : Option.Rel (fun p q => p.1 = q.1 ∧ R p.2 q.2) t.best t'.best
  matched : t.matched = t'.matched

/-- If the totals before and after a change are compared alike, what is kept stays the same. -/
theorem sameTally_add (hle : ∀ {x x' y y'}, Weights.Totals f w x x' → Weights.Totals f w y y' →
      Scalar.le (goal.signed x) (goal.signed y) = Scalar.le (goal'.signed x') (goal'.signed y'))
    {columns : List ℕ} (hlength : columns.length = w.n) {t t' : Tally α} (h : SameTally (Weights.Totals f w) t t') :
    SameTally (Weights.Totals f w) (t.add goal w columns) (t'.add goal' (w.map f) columns) := by
  have htotal := Weights.rel_addTotal?_map f w columns (-Scalar.zero) (-Scalar.zero) 0
  rw [hlength] at htotal
  change Option.Rel (Weights.Totals f w) (w.total? columns).join ((w.map f).total? columns).join at htotal
  unfold Tally.add
  generalize (w.total? columns).join = total at htotal ⊢
  generalize ((w.map f).total? columns).join = total' at htotal ⊢
  obtain ⟨best, matched⟩ := t
  obtain ⟨best', matched'⟩ := t'
  obtain ⟨hbest, rfl⟩ := h
  cases htotal with
  | none => exact ⟨hbest, by simp only [Weights.countAllowed_map]⟩
  | some hx =>
    simp only at hbest
    cases hbest with
    | none => exact ⟨.some ⟨rfl, hx⟩, rfl⟩
    | @some p q hkept =>
      simp only [hle hx hkept.2]
      split
      · exact ⟨.some hkept, rfl⟩
      · exact ⟨.some ⟨rfl, hx⟩, rfl⟩

/-- If the totals before and after a change are compared alike, what all permutations amount to stays the same. -/
theorem sameTally (hle : ∀ {x x' y y'}, Weights.Totals f w x x' → Weights.Totals f w y y' →
      Scalar.le (goal.signed x) (goal.signed y) = Scalar.le (goal'.signed x') (goal'.signed y')) :
    SameTally (Weights.Totals f w) (tally goal w) (tally goal' (w.map f)) := by
  rw [tally_eq_foldl, tally_eq_foldl]
  refine List.foldl_rel ⟨.none, rfl⟩ fun columns hcolumns t t' h => sameTally_add hle ?_ h
  rw [(Permutations.mem_all.1 hcolumns).length_eq, List.length_range]
  rfl

/-- If the totals before and after a change are compared alike, calls of new matchers agree. -/
theorem agree_solve {E : Failure α → Failure α} {R : α → α → Prop} (hE : ∀ e, (∀ x y, e ≠ .unshiftable x y) → E e = e)
    (hle : ∀ {x x' y y'}, Weights.Totals f w x x' → Weights.Totals f w y y' →
      Scalar.le (goal.signed x) (goal.signed y) = Scalar.le (goal'.signed x') (goal'.signed y'))
    (hR : ∀ {x x'}, w.n = n → Weights.Totals f w x x' → R x x') (hzero : n = 0 → R Scalar.zero Scalar.zero) :
    let r := (new n : Enumeration α n).solve goal w
    let r' := (new n : Enumeration α n).solve goal' (w.map f)
    Agree E R r.outcome r.matcher.result r'.outcome r'.matcher.result := by
  intro r r'
  have hmin : (w.map f).min?.isNone = w.min?.isNone := by
    rw [Bool.eq_iff_iff, Weights.isNone_min?_iff, Weights.isNone_min?_iff, Weights.allowed_map, List.map_eq_nil_iff]
  have hsize : (w.map f).n = w.n := rfl
  have hsame := sameTally hle
  simp only [r, r', solve, hmin, hsize]
  split_ifs with hmismatch hzeroSize hlimit hedge
  · exact .failed_of_eq (hE _ (by simp))
  · exact .found [] [] (hzero hzeroSize)
  · exact .failed_of_eq (hE _ (by simp))
  · exact .failed_of_eq (hE _ (by simp))
  · obtain ⟨hbest, hmatched⟩ := hsame
    rw [hmatched]
    generalize (tally goal w).best = best at hbest ⊢
    generalize (tally goal' (w.map f)).best = best' at hbest ⊢
    cases hbest with
    | none => exact .failed_of_eq (hE _ (by simp))
    | @some p q h =>
      obtain ⟨columns, x⟩ := p
      obtain ⟨columns', x'⟩ := q
      obtain ⟨rfl, htotals⟩ := h
      exact .found columns (inverse columns) (hR (not_not.1 hmismatch) htotals)

end Enumeration

end PerfectMatching
