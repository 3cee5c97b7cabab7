import Mathlib.Tactic.Ring
import PerfectMatching.Proofs.Search.Rounds

/-!
# How many rounds a search takes

While no more rows are matched, every dual update makes a further column tight, and before an update every tight column is
matched. So with `k` matched rows there are at most `k + 1` updates, and a search ends after fewer rounds than it may take.
Main statements: what the rounds so far have cost (`Stage.spent`), how far the updates of one phase go
(`Stage.updates_le_of_augmentations_eq`), where a search ends (`exists_last_round`) and in what state (`stablePoint_complete`), and that no
larger number of rounds changes anything (`Stage.run_eq`).
-/

namespace PerfectMatching.PrimalDual

open Relation State LawfulScalar

variable {α : Type} {n : ℕ} {work : Table α n} {s t : State α n} {effort : Effort}

/-! ## Matched rows and tight columns -/

/-- The number of matched rows, as the size of a set. -/
theorem matched_eq_card (s : State α n) : s.matched = (Finset.univ.filter fun i => s.rowMate.get i ≠ none).card := by
  rw [matched, countP_eq_card]
  simp only [Option.isSome_iff_ne_none]

/-- As long as a row is left, fewer rows are matched than there are. -/
theorem matched_lt (h : ∃ i, s.rowMate.get i = none) : s.matched < n := by
  obtain ⟨i, hi⟩ := h
  rw [matched_eq_card]
  calc (Finset.univ.filter fun i => s.rowMate.get i ≠ none).card < (Finset.univ : Finset (Fin n)).card := by
        refine Finset.card_lt_card ((Finset.ssubset_iff_of_subset (Finset.filter_subset _ _)).2 ⟨i, Finset.mem_univ i, ?_⟩)
        rw [Finset.mem_filter, not_and_not_right]
        exact fun _ => hi
    _ = n := Finset.card_fin n

/-- If no row is left, all rows are matched. -/
theorem matched_eq (h : ∀ i, s.rowMate.get i ≠ none) : s.matched = n := by
  rw [matched_eq_card, Finset.filter_true_of_mem fun i _ => h i, Finset.card_fin]

/-- The rows that are not matched, as the size of a set. -/
theorem card_unmatched (s : State α n) : (Finset.univ.filter fun i => s.rowMate.get i = none).card = n - s.matched := by
  have hsplit := Finset.card_filter_add_card_filter_not (s := (Finset.univ : Finset (Fin n))) fun i => s.rowMate.get i = none
  rw [Finset.card_fin, ← matched_eq_card] at hsplit
  omega

variable [Scalar α]

/-- At the beginning no row is matched. -/
theorem matched_start (work : Table α n) : (start work).matched = 0 := by
  rw [matched_eq_card, Finset.card_eq_zero, Finset.filter_eq_empty_iff]
  simp [start, restart]

/-- When nothing is left to visit, the rows that have been reached are the mates of the tight columns and the rows that are not
matched. -/
theorem State.Grown.card_reached (h : Grown work s) (hex : Exhausted s) :
    (Finset.univ.filter fun i => (s.rowLabel.get i).isReached = true).card = s.tightCount + (n - s.matched) := by
  have hmate : ∀ j, Scalar.positive (s.slack.get j) = false → ∃ i, s.rowMate.get i = some j ∧ s.Reached i := by
    intro j hj
    obtain ⟨i, hi, hreached⟩ := h.visited j hj (by rw [hex.colStack_eq]; exact List.not_mem_nil)
    exact ⟨i, (h.agree i j).2 hi, hreached⟩
  choose! mate hmate using hmate
  have hmatched : s.tightCount =
      (Finset.univ.filter fun i => (s.rowLabel.get i).isReached = true ∧ s.rowMate.get i ≠ none).card := by
    refine Finset.card_bij (fun j _ => mate j) (fun j hj => ?_) (fun j hj k hk heq => ?_) fun i hi => ?_
    · obtain ⟨hrow, hreached⟩ := hmate j (Finset.mem_filter.1 hj).2
      exact Finset.mem_filter.2 ⟨Finset.mem_univ _, isReached_iff.2 hreached, by rw [hrow]; exact nofun⟩
    · have h1 := (hmate j (Finset.mem_filter.1 hj).2).1
      have h2 := (hmate k (Finset.mem_filter.1 hk).2).1
      rw [heq, h2] at h1
      exact (Option.some.inj h1).symm
    · obtain ⟨hreached, hrow⟩ := (Finset.mem_filter.1 hi).2
      obtain ⟨j, hj⟩ := Option.ne_none_iff_exists'.1 hrow
      have htight := (h.reached_iff_tight hex hj).1 (isReached_iff.1 hreached)
      refine ⟨j, Finset.mem_filter.2 ⟨Finset.mem_univ j, htight⟩, ?_⟩
      have h1 := (h.agree _ j).1 (hmate j htight).1
      rw [(h.agree i j).1 hj] at h1
      exact (Option.some.inj h1).symm
  have hroots : n - s.matched =
      (Finset.univ.filter fun i => (s.rowLabel.get i).isReached = true ∧ s.rowMate.get i = none).card := by
    rw [← card_unmatched]
    congr 1
    refine Finset.filter_congr fun i _ => (and_iff_right_of_imp fun hi => ?_).symm
    rw [(h.root_iff i).2 hi]
    rfl
  rw [hmatched, hroots, ← Finset.card_filter_add_card_filter_not fun i => s.rowMate.get i = none, Finset.filter_filter,
    Finset.filter_filter, Nat.add_comm]

/-- If every tight column has been visited, there are no more of them than matched rows. -/
theorem tightCount_le_matched (h : Grown work s) (hex : Exhausted s) : s.tightCount ≤ s.matched := by
  have hcard := h.card_reached hex
  have hreached := Finset.card_le_univ (Finset.univ.filter fun i => (s.rowLabel.get i).isReached = true)
  have hmatched := Finset.card_le_univ (Finset.univ.filter fun i => s.rowMate.get i ≠ none)
  rw [Fintype.card_fin] at hreached hmatched
  rw [← matched_eq_card] at hmatched
  omega

/-- Steps of a search do not change the number of matched rows. -/
theorem matched_of_steps (h : ReflTransGen (Step work) s t) : t.matched = s.matched := by
  rw [matched, matched, (framed_of_steps h).rowMate_eq]

/-- With one more matched row there may be as many updates more as there are matched rows. -/
theorem triangle_succ (a : ℕ) : (a + 1) * (a + 1 + 1) / 2 = a * (a + 1) / 2 + (a + 1) := by
  rw [show (a + 1) * (a + 1 + 1) = a * (a + 1) + (a + 1) * 2 by ring, Nat.add_mul_div_right _ _ two_pos]

/-- A run ends with the first round that leaves nothing to do. -/
theorem run_of_finished (h : (s.round work effort).verdict ≠ .unfinished) (rounds : ℕ) :
    s.run work (rounds + 1) effort = s.round work effort := by
  rw [run]
  split
  · rename_i hunfinished
    exact absurd hunfinished h
  · rfl

/-! ## What the rounds cost -/

/-- One round leads to the next. -/
inductive Next (work : Table α n) : State α n × Effort → State α n × Effort → Prop where
  | intro {s : State α n} {effort : Effort} : (s.round work effort).verdict = .unfinished →
      Next work (s, effort) ((s.round work effort).state, (s.round work effort).effort)

/-- The states at the beginning of the rounds are those that rounds lead to from the start. -/
theorem stage_iff : Stage work s effort ↔ ReflTransGen (Next work) (start work, ⟨0, 0⟩) (s, effort) := by
  constructor
  · intro h
    induction h with
    | start => exact .refl
    | next _ hunfinished ih => exact ih.tail (.intro hunfinished)
  · intro h
    generalize hp : (s, effort) = p at h
    induction h generalizing s effort with
    | refl =>
      obtain ⟨rfl, rfl⟩ := Prod.mk.inj hp
      exact .start
    | tail _ hnext ih =>
      cases hnext with
      | intro hunfinished =>
        obtain ⟨rfl, rfl⟩ := Prod.mk.inj hp
        exact (ih rfl).next hunfinished

/-- What has been spent since some earlier round: with the same number of matched rows, no more updates than there are tight
columns, and at most one more than there are matched rows. -/
structure SpentSince (first : Effort) (s : State α n) (effort : Effort) : Prop where
  augmentations_le : first.augmentations ≤ effort.augmentations
  updates_le : first.updates ≤ effort.updates
  phase : effort.augmentations = first.augmentations →
    effort.updates ≤ first.updates + min s.tightCount (effort.augmentations + 1)

/-- What the rounds so far have cost. -/
structure Spent (s : State α n) (effort : Effort) : Prop where
  matched_eq : s.matched = effort.augmentations
  updates_le : effort.updates ≤
    effort.augmentations * (effort.augmentations + 1) / 2 + min s.tightCount (effort.augmentations + 1)

variable [LawfulScalar α]

/-- Before an update there are no more tight columns than matched rows. -/
theorem State.Valid.tightCount_bounds (h : Valid work s) (hst : ReflTransGen (Step work) s t) (hex : Exhausted t) :
    s.tightCount ≤ t.tightCount ∧ t.tightCount ≤ s.matched := by
  refine ⟨(framed_of_steps hst).tightCount_le, ?_⟩
  rw [← matched_of_steps hst]
  exact tightCount_le_matched (h.of_steps hst).grown hex

/-- What a round costs: an augmentation and no update, or an update and a further tight column, or nothing as the search is
given up. Without an augmentation there were no more tight columns than matched rows. -/
theorem State.Turn.cost {p : Progress α n} (hturn : Turn work s effort p) (h : Valid work s) :
    (p.effort = ⟨effort.augmentations + 1, effort.updates⟩ ∧ p.state.matched = s.matched + 1) ∨
      p.state.matched = s.matched ∧ s.tightCount ≤ s.matched ∧
        ((p.verdict = .infeasible ∧ p.effort = effort ∧ s.tightCount ≤ p.state.tightCount) ∨
          (p.verdict = .unfinished ∧ p.effort = ⟨effort.augmentations, effort.updates + 1⟩ ∧
            s.tightCount < p.state.tightCount)) := by
  cases hturn with
  | augmented hst hr _ =>
    refine Or.inl ⟨rfl, ?_⟩
    rw [← matched_of_steps hst]
    exact hr.flipped.matched_eq
  | completed hst hr _ =>
    refine Or.inl ⟨rfl, ?_⟩
    rw [← matched_of_steps hst]
    exact hr.flipped.matched_eq
  | abandoned hst hex _ =>
    have hbounds := h.tightCount_bounds hst hex
    exact Or.inr ⟨matched_of_steps hst, hbounds.1.trans hbounds.2, Or.inl ⟨rfl, rfl, hbounds.1⟩⟩
  | relaxed hst hex hamount =>
    have hbounds := h.tightCount_bounds hst hex
    have hlt := hamount.tightCount_lt (h.of_steps hst).grown
    have hmatched := matched_of_steps hst
    exact Or.inr ⟨hmatched, hbounds.1.trans hbounds.2, Or.inr ⟨rfl, rfl, hbounds.1.trans_lt hlt⟩⟩

/-- What the rounds have cost after one more. -/
theorem State.Turn.spent {p : Progress α n} (hturn : Turn work s effort p) (h : Valid work s) (hs : Spent s effort) :
    Spent p.state p.effort := by
  obtain ⟨hmatched, hupdates⟩ := hs
  have htri := triangle_succ effort.augmentations
  rcases hturn.cost h with ⟨heffort, hm⟩ | ⟨hm, htight, ⟨_, heffort, hle⟩ | ⟨_, heffort, hlt⟩⟩
  · rw [heffort]
    exact ⟨by simp only; omega, by simp only; omega⟩
  · rw [heffort]
    exact ⟨by omega, by omega⟩
  · rw [heffort]
    exact ⟨by simp only; omega, by simp only; omega⟩

/-- What has been spent since some earlier round after one more. -/
theorem State.Turn.spentSince {p : Progress α n} {first : Effort} (hturn : Turn work s effort p) (h : Valid work s)
    (hspent : Spent s effort) (hs : SpentSince first s effort) : SpentSince first p.state p.effort := by
  obtain ⟨haug, hupdates, hphase⟩ := hs
  have hmatched := hspent.matched_eq
  rcases hturn.cost h with ⟨heffort, hm⟩ | ⟨hm, htight, ⟨_, heffort, hle⟩ | ⟨_, heffort, hlt⟩⟩
  · rw [heffort]
    exact ⟨by simp only; omega, hupdates, by simp only; omega⟩
  · rw [heffort]
    exact ⟨haug, hupdates, by omega⟩
  · rw [heffort]
    exact ⟨haug, by simp only; omega, by simp only; omega⟩

section Stages

variable {least greatest : ℚ} (hwork : Between work least greatest) (hgreatest : 0 ≤ greatest) (hn : 0 < n)

include hwork hgreatest hn

/-- At the beginning of every round the trees and the numbers are sound. -/
theorem Stage.valid (h : Stage work s effort) : Valid work s := by
  induction h with
  | start => exact valid_start hwork hgreatest hn
  | next _ hunfinished ih => exact (ih.turn_round _).valid ih hunfinished

/-- What holds at the start and is kept by every augmentation and every dual update holds at the beginning of every round. -/
theorem Stage.induction {motive : State α n → Effort → Prop} (start : motive (State.start work) ⟨0, 0⟩)
    (augment : ∀ {s t u : State α n} {j : Fin n} {effort : Effort}, Stage work s effort → Valid work s →
      ReflTransGen (Step work) s t → Reaching t j u →
      Stage work { u.reseed with colStack := [] } ⟨effort.augmentations + 1, effort.updates⟩ → motive s effort →
      motive { u.reseed with colStack := [] } ⟨effort.augmentations + 1, effort.updates⟩)
    (update : ∀ {s t : State α n} {effort : Effort}, Stage work s effort → Valid work s →
      ReflTransGen (Step work) s t → Exhausted t → Admissible t t.leastSlack →
      Stage work (t.update t.leastSlack) ⟨effort.augmentations, effort.updates + 1⟩ → motive s effort →
      motive (t.update t.leastSlack) ⟨effort.augmentations, effort.updates + 1⟩)
    (h : Stage work s effort) : motive s effort := by
  induction h with
  | start => exact start
  | @next s effort hstage hunfinished ih =>
    have hv := hstage.valid hwork hgreatest hn
    have hturn := hv.turn_round effort
    have hnext := hstage.next hunfinished
    revert hunfinished hnext
    generalize s.round work effort = p at hturn
    intro hunfinished hnext
    cases hturn with
    | augmented hst hr _ => exact augment hstage hv hst hr hnext ih
    | completed _ _ _ => exact nomatch hunfinished
    | abandoned _ _ _ => exact nomatch hunfinished
    | relaxed hst hex ha => exact update hstage hv hst hex ha hnext ih

/-- What the rounds so far have cost. -/
theorem Stage.spent (h : Stage work s effort) : Spent s effort := by
  induction h with
  | start => exact ⟨matched_start work, Nat.zero_le _⟩
  | next h _ ih =>
    have hvalid := h.valid hwork hgreatest hn
    exact (hvalid.turn_round _).spent hvalid ih

/-- With the same number of matched rows `k`, a search makes at most `k + 1` dual updates. -/
theorem Stage.updates_le_of_augmentations_eq {s' : State α n} {effort' : Effort} (h : Stage work s effort)
    (h' : Stage work s' effort') (heq : effort'.augmentations = effort.augmentations) :
    effort'.updates ≤ effort.updates + (effort.augmentations + 1) := by
  have hunique : Relator.RightUnique (Next work) := by
    rintro _ _ _ ⟨_⟩ ⟨_⟩
    rfl
  have hsince : ∀ p q, ReflTransGen (Next work) p q → Stage work p.1 p.2 → SpentSince p.2 q.1 q.2 ∧ Stage work q.1 q.2 := by
    intro p q hpq hp
    induction hpq with
    | refl => exact ⟨⟨le_rfl, le_rfl, fun _ => Nat.le_add_right _ _⟩, hp⟩
    | tail _ hnext ih =>
      obtain ⟨hs, hstage⟩ := ih
      cases hnext with
      | intro hunfinished =>
        have hvalid := hstage.valid hwork hgreatest hn
        exact ⟨(hvalid.turn_round _).spentSince hvalid (hstage.spent hwork hgreatest hn) hs, hstage.next hunfinished⟩
  rcases ReflTransGen.total_of_right_unique hunique (stage_iff.1 h) (stage_iff.1 h') with hlater | hearlier
  · have := (hsince _ _ hlater h).1.phase heq
    simp only at this
    omega
  · have := (hsince _ _ hearlier h').1.updates_le
    simp only at this
    omega

/-- No more dual updates have been made than a search makes in all. -/
theorem Stage.updates_le (h : Stage work s effort) : effort.updates ≤ n * (n + 1) / 2 := by
  obtain ⟨hmatched, hupdates⟩ := h.spent hwork hgreatest hn
  have hlt := matched_lt (h.valid hwork hgreatest hn).unmatched
  have htri := triangle_succ effort.augmentations
  have hmono : (effort.augmentations + 1) * (effort.augmentations + 1 + 1) / 2 ≤ n * (n + 1) / 2 :=
    Nat.div_le_div_right (Nat.mul_le_mul (by omega) (by omega))
  omega

/-- Before every round fewer rounds have been made than a search may take. -/
theorem Stage.turns_lt (h : Stage work s effort) :
    effort.augmentations + effort.updates < n + n * (n + 1) / 2 := by
  have hmatched := (h.spent hwork hgreatest hn).matched_eq
  have hlt := matched_lt (h.valid hwork hgreatest hn).unmatched
  have hupdates := h.updates_le hwork hgreatest hn
  omega

/-- A round that leaves more to do counts as one. -/
theorem Stage.turns_next (h : Stage work s effort) (hunfinished : (s.round work effort).verdict = .unfinished) :
    (s.round work effort).effort.augmentations + (s.round work effort).effort.updates =
      effort.augmentations + effort.updates + 1 := by
  have hvalid := h.valid hwork hgreatest hn
  rcases (hvalid.turn_round effort).cost hvalid with ⟨heffort, _⟩ | ⟨_, _, ⟨hverdict, _⟩ | ⟨_, heffort, _⟩⟩
  · rw [heffort]
    simp only
    omega
  · rw [hunfinished] at hverdict
    exact nomatch hverdict
  · rw [heffort]
    simp only
    omega

/-- A search that may make as many rounds as it can take ends with a round that leaves nothing to do. -/
theorem Stage.exists_last_round (h : Stage work s effort) {rounds : ℕ}
    (hrounds : n + n * (n + 1) / 2 ≤ rounds + (effort.augmentations + effort.updates)) :
    ∃ t e, Stage work t e ∧ (t.round work e).verdict ≠ .unfinished ∧
      (s.run work rounds effort).state = (t.round work e).state ∧
      (s.run work rounds effort).effort = (t.round work e).effort ∧
      (s.run work rounds effort).verdict = (t.round work e).verdict := by
  induction rounds generalizing s effort with
  | zero =>
    have := h.turns_lt hwork hgreatest hn
    omega
  | succ rounds ih =>
    by_cases hunfinished : (s.round work effort).verdict = .unfinished
    · have hturns := h.turns_next hwork hgreatest hn hunfinished
      obtain ⟨t, e, ht, hlast, hrun⟩ := ih (h.next hunfinished) (by omega)
      refine ⟨t, e, ht, hlast, ?_⟩
      rw [run]
      simp only [hunfinished]
      exact hrun
    · refine ⟨s, effort, h, hunfinished, ?_⟩
      rw [run_of_finished hunfinished]
      exact ⟨rfl, rfl, rfl⟩

/-- More rounds than a search can take change nothing. -/
theorem Stage.run_eq (h : Stage work s effort) {rounds rounds' : ℕ}
    (hrounds : n + n * (n + 1) / 2 ≤ rounds + (effort.augmentations + effort.updates))
    (hrounds' : n + n * (n + 1) / 2 ≤ rounds' + (effort.augmentations + effort.updates)) :
    s.run work rounds effort = s.run work rounds' effort := by
  induction rounds generalizing s effort rounds' with
  | zero =>
    have := h.turns_lt hwork hgreatest hn
    omega
  | succ rounds ih =>
    have hlt := h.turns_lt hwork hgreatest hn
    obtain ⟨rounds', rfl⟩ := Nat.exists_eq_add_of_le' (show 1 ≤ rounds' by omega)
    by_cases hunfinished : (s.round work effort).verdict = .unfinished
    · have hturns := h.turns_next hwork hgreatest hn hunfinished
      have hrest : (s.round work effort).state.run work rounds (s.round work effort).effort =
          (s.round work effort).state.run work rounds' (s.round work effort).effort :=
        ih (h.next hunfinished) (by omega) (by omega)
      rw [run, run]
      simp only [hunfinished, hrest]
    · rw [run_of_finished hunfinished, run_of_finished hunfinished]

end Stages

/-- A search may take enough rounds. -/
theorem bound_le_rounds (n : ℕ) : n + n * (n + 1) / 2 ≤ rounds n := by
  have h1 : n * (n + 1) / 2 ≤ n * (n + 1) := Nat.div_le_self _ _
  have h2 : rounds n = n + n * (n + 1) + 1 := by
    rw [rounds]
    ring
  omega

/-- How a search ends: with a round from the beginning of which the trees and the numbers are sound, and which matches the last
row or gives up. -/
theorem exists_last_round {least greatest : ℚ} (hwork : Between work least greatest) (hgreatest : 0 ≤ greatest) (hn : 0 < n) :
    ∃ s effort p, Stage work s effort ∧ Turn work s effort p ∧ p.verdict ≠ .unfinished ∧
      (complete work).state = p.state ∧ (complete work).effort = p.effort ∧ (complete work).verdict = p.verdict := by
  have hstart : Stage work (start work) ⟨0, 0⟩ := .start
  obtain ⟨s, effort, hstage, hlast, hrun⟩ := hstart.exists_last_round hwork hgreatest hn (bound_le_rounds n)
  exact ⟨s, effort, _, hstage, (hstage.valid hwork hgreatest hn).turn_round effort, hlast, hrun⟩

/-- A search ends at a stable point. -/
theorem stablePoint_complete {least greatest : ℚ} (hwork : Between work least greatest) (hgreatest : 0 ≤ greatest) (hn : 0 < n) :
    StablePoint work (complete work).state := by
  have hstart : Stage work (start work) ⟨0, 0⟩ := .start
  obtain ⟨s, effort, hstage, hlast, hstate, _⟩ := hstart.exists_last_round hwork hgreatest hn (bound_le_rounds n)
  have hend : (complete work).state = (s.round work effort).state := hstate
  rw [hend]
  unfold State.round at hlast ⊢
  rcases hsearch : s.search work with ⟨_ | j, t⟩
  · simp only [hsearch] at hlast ⊢
    unfold relax at hlast ⊢
    split at hlast
    · rename_i hlt
      rw [if_pos hlt]
      exact .searched hstage hsearch
    · exact absurd rfl hlast
  · obtain ⟨r, u, events, _, _, hflip⟩ := (hstage.valid hwork hgreatest hn).reaching_of_search hsearch
    simp only [hsearch, State.augment, hflip] at hlast ⊢
    split at hlast
    · rename_i hempty
      rw [if_pos hempty]
      exact .augmented hstage hsearch hflip
    · exact absurd rfl hlast

end PerfectMatching.PrimalDual
