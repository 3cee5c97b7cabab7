import PerfectMatching.Proofs.Binary64.Lawful
import PerfectMatching.Proofs.Calls
import PerfectMatching.Proofs.Histories

/-!
# What is left of the past

A call does the same to every matcher, whatever the matcher holds: it leaves the matcher as it was, or clears its result, or has it
search, and then nothing of what it held is left (`PrimalDual.acts`). So a matcher that has been used answers as a new one
(`solve_reused`), and what it shows besides its result is all of it from the last call that made it search
(`PrimalDual.view_after`).
-/

namespace PerfectMatching

variable {α : Type} [Scalar α] {n : ℕ} {goal : Goal} {w : Weights α}

namespace PrimalDual

/-! ## What a call does to every matcher -/

/-- What a call does to every matcher for `n` nodes a side. -/
inductive Acts (n : ℕ) (goal : Goal) (w : Weights α) : Prop where
  | mismatched : isSearched n (goal, w) = false →
      (∀ m : PrimalDual α n, m.solve goal w = ⟨.error (.sizeMismatch n w.n), m, []⟩) → Acts n goal w
  | cleared (outcome : Except (Failure α) Unit) : isSearched n (goal, w) = false → isMismatch outcome = false →
      n = 0 ∨ isRefused outcome = true → (∀ m : PrimalDual α n, m.solve goal w = ⟨outcome, m.cleared, []⟩) → Acts n goal w
  | searched {least greatest : α} (h : w.n = n) : isSearched n (goal, w) = true → bounds? goal w = some (least, greatest) →
      isShiftable least greatest (offsetOf w least greatest) = true →
      (∀ m : PrimalDual α n, m.solve goal w =
        searchTable goal (offsetOf w least greatest) (shift goal (offsetOf w least greatest) w h)) → Acts n goal w

/-- A matrix without rows has no bounds. -/
theorem bounds?_eq_none (h : w.n = 0) : bounds? goal w = none := by
  have hentries : w.entries.toList = [] := by
    rw [← List.length_eq_zero_iff, Vector.length_toList, h]
  rw [bounds?, Weights.allowed, hentries]
  rfl

/-- A call is searched for if its matrix has the right size and its weights pass the range check. -/
theorem isSearched_eq (h : w.n = n) : isSearched n (goal, w) =
    (bounds? goal w).any fun (least, greatest) => isShiftable least greatest (offsetOf w least greatest) := by
  rw [isSearched, beq_iff_eq.2 h, Bool.true_and]

/-- A call does the same to every matcher: it leaves it as it was, clears its result, or has it search. -/
theorem acts (n : ℕ) (goal : Goal) (w : Weights α) : Acts n goal w := by
  by_cases h : w.n = n
  case neg =>
    refine .mismatched ?_ fun m => by rw [solve, dif_neg h]
    rw [isSearched, beq_false_of_ne h, Bool.false_and]
  case pos =>
    have hsearched : isSearched n (goal, w) = _ := isSearched_eq h
    by_cases hn : n = 0
    · rw [bounds?_eq_none (h.trans hn)] at hsearched
      exact .cleared _ hsearched rfl (Or.inl hn) fun m => by rw [solve, dif_pos h, if_pos hn]
    cases hbounds : bounds? goal w with
    | none =>
      rw [hbounds] at hsearched
      exact .cleared (.error .noEdge) hsearched rfl (Or.inr rfl) fun m => by simp only [solve, dif_pos h, if_neg hn, hbounds]
    | some bounds =>
      obtain ⟨least, greatest⟩ := bounds
      rw [hbounds, Option.any_some] at hsearched
      cases hshift : isShiftable least greatest (offsetOf w least greatest) with
      | true => exact .searched h (hsearched.trans hshift) hbounds hshift fun m =>
          solve_eq_searchTable m h (Nat.pos_of_ne_zero hn) hbounds hshift
      | false =>
        refine .cleared (.error (.unshiftable (Scalar.min (goal.signed least) (goal.signed greatest))
          (Scalar.max (goal.signed least) (goal.signed greatest)))) (hsearched.trans hshift) rfl (Or.inr rfl) fun m => ?_
        simp only [solve, dif_pos h, if_neg hn, hbounds, hshift, Bool.false_eq_true, if_false]

/-- Two matchers answer a call alike: with the same outcome and the same events, unless it is refused for the size of its matrix with the
same result and the same effort, and if they search they are the same afterwards. -/
theorem solve_congr (m m' : PrimalDual α n) (goal : Goal) (w : Weights α) :
    let r := m.solve goal w
    let r' := m'.solve goal w
    r.outcome = r'.outcome ∧ r.events = r'.events ∧
      (isMismatch r.outcome = false → r.matcher.result = r'.matcher.result ∧ r.matcher.effort = r'.matcher.effort) ∧
      (isSearched n (goal, w) = true → r.matcher = r'.matcher) := by
  intro r r'
  simp only [r, r']
  cases acts n goal w with
  | mismatched hnot heq =>
    rw [heq m, heq m', hnot]
    exact ⟨rfl, rfl, nofun, nofun⟩
  | cleared _ hnot _ _ heq =>
    rw [heq m, heq m', hnot]
    exact ⟨rfl, rfl, fun _ => ⟨rfl, rfl⟩, nofun⟩
  | searched _ _ _ _ heq =>
    rw [heq m, heq m']
    exact ⟨rfl, rfl, fun _ => ⟨rfl, rfl⟩, fun _ => rfl⟩

end PrimalDual

/-- Two matchers that enumerate answer a call alike, and unless it is refused for the size of its matrix they are the same afterwards. -/
theorem Enumeration.solve_congr (m m' : Enumeration α n) (goal : Goal) (w : Weights α) :
    let r := m.solve goal w
    let r' := m'.solve goal w
    r.outcome = r'.outcome ∧ r.events = r'.events ∧ (isMismatch r.outcome = false → r.matcher = r'.matcher) := by
  intro r r'
  simp only [r, r', solve]
  split
  · exact ⟨rfl, rfl, nofun⟩
  · exact ⟨rfl, rfl, fun _ => rfl⟩

/-- Whatever calls came before, a matcher of either method answers as a new one: with the same outcome and the same events, and unless
the call is refused for the size of its matrix it leaves the same result and the same effort. If the call makes a matcher search by
dual variables, the matcher is the same afterwards in all that it holds. -/
theorem solve_reused (calls : List (Call α)) (goal : Goal) (w : Weights α) :
    (let used := (PrimalDual.after calls : PrimalDual α n).solve goal w
      let fresh := (PrimalDual.new n).solve goal w
      used.outcome = fresh.outcome ∧ used.events = fresh.events ∧
        (isMismatch used.outcome = false →
          used.matcher.result = fresh.matcher.result ∧ used.matcher.effort = fresh.matcher.effort) ∧
        (PrimalDual.isSearched n (goal, w) = true → used.matcher = fresh.matcher)) ∧
    (let used := (Enumeration.after calls : Enumeration α n).solve goal w
      let fresh := (Enumeration.new n).solve goal w
      used.outcome = fresh.outcome ∧ used.events = fresh.events ∧
        (isMismatch used.outcome = false → used.matcher.result = fresh.matcher.result)) := by
  refine ⟨PrimalDual.solve_congr _ _ goal w, ?_⟩
  obtain ⟨houtcome, hevents, hmatcher⟩ := Enumeration.solve_congr (Enumeration.after calls : Enumeration α n) (.new n) goal w
  exact ⟨houtcome, hevents, fun h => congrArg Enumeration.result (hmatcher h)⟩

namespace PrimalDual

/-! ## What a matcher shows of its last search -/

/-- The last call that is searched for, after one more call. -/
theorem lastSearched?_concat (n : ℕ) (calls : List (Call α)) (call : Call α) :
    lastSearched? n (calls ++ [call]) = if isSearched n call then some call else lastSearched? n calls := by
  rw [lastSearched?, List.filter_append]
  cases h : isSearched n call <;> simp [h, lastSearched?]

/-- What a matcher holds besides the result and the effort. -/
structure SameProblem (m m' : PrimalDual α n) : Prop where
  work_eq : m.work = m'.work
  offset_eq : m.offset = m'.offset
  goal_eq : m.goal = m'.goal
  state_eq : m.state = m'.state

/-- A call that is not searched for changes nothing but the result and the effort. -/
theorem sameProblem_solve (m : PrimalDual α n) (h : isSearched n (goal, w) = false) : SameProblem (m.solve goal w).matcher m := by
  cases acts n goal w with
  | mismatched _ heq =>
    rw [heq]
    exact ⟨rfl, rfl, rfl, rfl⟩
  | cleared _ _ _ _ heq =>
    rw [heq]
    exact ⟨rfl, rfl, rfl, rfl⟩
  | searched _ hsearched _ _ _ => exact Bool.noConfusion (h.symm.trans hsearched)

/-- After any calls, a matcher holds besides the result and the effort what the last one that was searched for leaves of a new one. -/
theorem sameProblem_after (calls : List (Call α)) :
    SameProblem (after calls : PrimalDual α n)
      ((lastSearched? n calls).elim (new n) fun call => ((new n).solve call.1 call.2).matcher) := by
  induction calls using List.reverseRecOn with
  | nil => exact ⟨rfl, rfl, rfl, rfl⟩
  | append_singleton calls call ih =>
    rw [lastSearched?_concat, after_concat]
    obtain ⟨goal, w⟩ := call
    cases h : isSearched n (goal, w) with
    | true =>
      rw [if_pos rfl, Option.elim_some, (solve_congr (after calls) (new n) goal w).2.2.2 h]
      exact ⟨rfl, rfl, rfl, rfl⟩
    | false =>
      have hkept := sameProblem_solve (after calls : PrimalDual α n) h
      rw [if_neg Bool.false_ne_true]
      exact ⟨hkept.work_eq.trans ih.work_eq, hkept.offset_eq.trans ih.offset_eq, hkept.goal_eq.trans ih.goal_eq,
        hkept.state_eq.trans ih.state_eq⟩

/-- Matchers that hold the same besides the result and the effort show the same. -/
theorem SameProblem.view_eq {m m' : PrimalDual Float n} (h : SameProblem m m') : m.view = m'.view := by
  obtain ⟨work, offset, goal, state, _, _⟩ := m
  obtain ⟨rfl, rfl, rfl, rfl⟩ := h
  rfl

/-- A call on binary64 weights that is not searched for is refused, unless there are no rows; one that is searched for succeeds or finds
that there is no perfect matching. -/
theorem isRefused_or (m : PrimalDual Float n) (goal : Goal) (w : Weights Float) :
    let r := m.solve goal w
    (isSearched n (goal, w) = false ∧ (n = 0 ∨ isRefused r.outcome = true)) ∨
      isSearched n (goal, w) = true ∧ (r.outcome = .ok () ∨ ∃ k, r.outcome = .error (.noPerfectMatching k n)) := by
  intro r
  simp only [r]
  cases acts n goal w with
  | mismatched hnot heq =>
    rw [heq m]
    exact Or.inl ⟨hnot, Or.inr rfl⟩
  | cleared _ hnot _ hrefused heq =>
    rw [heq m]
    exact Or.inl ⟨hnot, hrefused⟩
  | @searched least greatest h hsearched hbounds hshift heq =>
    obtain ⟨hbetween, _, hpos, hle⟩ := between_shift hbounds hshift h
    have hended := ended_searchTable hbetween (hpos.le.trans hle) (h ▸ pos_of_bounds hbounds) goal (offsetOf w least greatest)
    rw [← heq m] at hended
    refine Or.inr ⟨hsearched, ?_⟩
    cases hended with
    | perfect _ _ _ _ _ hok _ _ _ => exact Or.inl hok
    | abandoned _ _ _ _ herror _ _ => exact Or.inr ⟨_, herror⟩

/-- What a matcher holds of the last call that was searched for: its goal, the shift and the shifted weights of its matrix, and the state in
which the search of these has ended. -/
structure HoldsSearch (m : PrimalDual α n) (goal : Goal) (w : Weights α) : Prop where
  goal_eq : m.goal = goal
  work_eq : ∃ least greatest, ∃ h : w.n = n, bounds? goal w = some (least, greatest) ∧
    m.offset = offsetOf w least greatest ∧ m.work = shift goal m.offset w h
  state_eq : m.state = (complete m.work).state

/-- After any calls, a matcher holds the goal, the shift, the shifted weights and the state of the last one that was searched for. -/
theorem holdsSearch_after {calls : List (Call α)} (h : lastSearched? n calls = some (goal, w)) :
    HoldsSearch (after calls : PrimalDual α n) goal w := by
  have hmem := List.mem_of_getLast? h
  rw [List.mem_filter] at hmem
  have hsame := sameProblem_after (n := n) calls
  rw [h, Option.elim_some] at hsame
  cases acts n goal w with
  | mismatched hnot _ => exact Bool.noConfusion (hmem.2.symm.trans hnot)
  | cleared _ hnot _ _ _ => exact Bool.noConfusion (hmem.2.symm.trans hnot)
  | @searched least greatest hsize _ hbounds _ heq =>
    have hleft := searched_searchTable goal (offsetOf w least greatest) (shift goal (offsetOf w least greatest) w hsize)
    rw [heq] at hsame
    have hwork := hsame.work_eq.trans hleft.work_eq
    have hoffset := hsame.offset_eq.trans hleft.offset_eq
    exact ⟨hsame.goal_eq.trans hleft.goal_eq, ⟨least, greatest, hsize, hbounds, hoffset, by rw [hwork, hoffset]⟩,
      by rw [hsame.state_eq, hleft.state_eq, hwork]⟩

/-- After any calls on binary64 weights, what a matcher shows besides its result is all from one call, the last one whose weights passed the
range check, or that of a new matcher if there is none. For such a call it is the same as after this call alone, and belongs to its goal
and its weights. A further call changes nothing of it if it is refused; it passes the range check, and then succeeds or finds that there
is no perfect matching, or is refused, unless there are no rows. -/
theorem view_after (calls : List (Call Float)) :
    let m := (after calls : PrimalDual Float n)
    (match lastSearched? n calls with
      | none => m.view = (new n).view
      | some (goal, w) => m.view = ((new n).solve goal w).matcher.view ∧ HoldsSearch m goal w) ∧
      ∀ goal w, let r := m.solve goal w
        (isRefused r.outcome = true → r.matcher.view = m.view) ∧
          (isSearched n (goal, w) = true → r.outcome = .ok () ∨ ∃ k, r.outcome = .error (.noPerfectMatching k n)) ∧
          (isSearched n (goal, w) = false → n = 0 ∨ isRefused r.outcome = true) := by
  intro m
  have hsame := sameProblem_after (n := n) calls
  refine ⟨?_, fun goal w => ?_⟩
  · cases h : lastSearched? n calls with
    | none =>
      rw [h] at hsame
      exact hsame.view_eq
    | some call =>
      rw [h] at hsame
      exact ⟨hsame.view_eq, holdsSearch_after h⟩
  · rcases isRefused_or m goal w with ⟨hnot, hrefused⟩ | ⟨hsearched, hok⟩
    · rw [hnot]
      exact ⟨fun _ => (sameProblem_solve m hnot).view_eq, nofun, fun _ => hrefused⟩
    · rw [hsearched]
      refine ⟨fun hrefused => ?_, fun _ => hok, nofun⟩
      rcases hok with hok | ⟨k, herror⟩
      · rw [hok] at hrefused
        exact nomatch hrefused
      · rw [herror] at hrefused
        exact nomatch hrefused

end PrimalDual

end PerfectMatching
