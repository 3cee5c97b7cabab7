import PerfectMatching.Proofs.Search.Flip
import PerfectMatching.Proofs.Search.Numbers

/-!
# The rounds

A round ends in one of four ways (`Turn`): the matching is augmented and there is more to do, it is augmented and perfect, the
search is given up, or the dual variables are updated. Whatever is rounded, no round contradicts the bookkeeping. Main
statements: the trees and the numbers are sound at the beginning of every round (`Stage.valid`), and every round ends in one of
the four ways (`Valid.turn_round`).
-/

namespace PerfectMatching.PrimalDual.State

open LawfulScalar Relation

variable {α : Type} [Scalar α] {n : ℕ} {work : Table α n} {s t u : State α n} {effort : Effort}

/-- Nothing is left to scan or to visit. -/
structure Exhausted (s : State α n) : Prop where
  rowStack_eq : s.rowStack = []
  colStack_eq : s.colStack = []

/-- A search ends at column `j`, which is reached and not matched, and flipping the path to it leads to the state `u`. -/
structure Reaching (t : State α n) (j : Fin n) (u : State α n) : Prop where
  rowStack_eq : t.rowStack = []
  tight : Scalar.positive (t.slack.get j) = false
  colMate_eq : t.colMate.get j = none
  flipped : Flipped t j u

/-- When nothing is left to visit, a matched row has been reached exactly if its column is tight. -/
theorem Grown.reached_iff_tight (h : Grown work t) (hex : Exhausted t) {i j : Fin n} (hij : t.rowMate.get i = some j) :
    t.Reached i ↔ Scalar.positive (t.slack.get j) = false := by
  constructor
  · intro hi
    cases hlabel : t.rowLabel.get i with
    | unreached => exact absurd hlabel hi
    | root =>
      rw [h.root_iff, hij] at hlabel
      exact nomatch hlabel
    | via b =>
      obtain ⟨hb, htight⟩ := h.via i b hlabel
      obtain rfl := Option.some.inj (hb.symm.trans hij)
      exact htight
  · intro hj
    obtain ⟨a, ha, hreached⟩ := h.visited j hj (by rw [hex.colStack_eq]; exact List.not_mem_nil)
    have := (h.agree i j).1 hij
    obtain rfl := Option.some.inj (ha.symm.trans this)
    exact hreached

/-- When nothing is left to visit, no edge is matched between a row that has been reached and a column that is not tight. -/
theorem Grown.not_mate (h : Grown work t) (hex : Exhausted t) {i j : Fin n} (hi : t.Reached i)
    (hj : Scalar.positive (t.slack.get j) = true) : t.rowMate.get i ≠ some j := by
  intro hij
  rw [(h.reached_iff_tight hex hij).1 hi] at hj
  exact nomatch hj

/-- When nothing is left to visit, a column that is not matched is not tight. -/
theorem Grown.positive_slack (h : Grown work t) (hex : Exhausted t) {j : Fin n} (hj : t.colMate.get j = none) :
    Scalar.positive (t.slack.get j) = true := by
  by_contra htight
  obtain ⟨i, hi, _⟩ := h.visited j (Bool.eq_false_iff.2 htight) (by rw [hex.colStack_eq]; exact List.not_mem_nil)
  exact nomatch hi.symm.trans hj

omit [Scalar α] in
/-- When nothing is left to scan, every row that has been reached has been scanned. -/
theorem Exhausted.not_mem_rowStack (hex : Exhausted t) (i : Fin n) : i ∉ t.rowStack := by
  rw [hex.rowStack_eq]
  exact List.not_mem_nil

variable [LawfulScalar α]

/-- The ways in which a round can end. -/
inductive Turn (work : Table α n) (s : State α n) (effort : Effort) : Progress α n → Prop where
  /-- The matching is augmented, and a row is left. -/
  | augmented {t u : State α n} {j : Fin n} {events : List (Event α)} : ReflTransGen (Step work) s t → Reaching t j u →
      (∃ i, u.rowMate.get i = none) →
      Turn work s effort
        ⟨{ u.reseed with colStack := [] }, ⟨effort.augmentations + 1, effort.updates⟩, .unfinished, events⟩
  /-- The matching is augmented, and perfect. -/
  | completed {t u : State α n} {j : Fin n} {events : List (Event α)} : ReflTransGen (Step work) s t → Reaching t j u →
      (∀ i, u.rowMate.get i ≠ none) →
      Turn work s effort ⟨u.reseed, ⟨effort.augmentations + 1, effort.updates⟩, .perfect, events⟩
  /-- The search is given up. -/
  | abandoned {t : State α n} : ReflTransGen (Step work) s t → Exhausted t →
      Scalar.lt t.leastDual t.leastSlack = true → Turn work s effort ⟨t, effort, .infeasible, []⟩
  /-- The dual variables are updated. -/
  | relaxed {t : State α n} : ReflTransGen (Step work) s t → Exhausted t → Admissible t t.leastSlack →
      Turn work s effort
        ⟨t.update t.leastSlack, ⟨effort.augmentations, effort.updates + 1⟩, .unfinished, [.dualUpdate t.leastSlack]⟩

/-- The trees and the numbers are sound, and a row is left to match. -/
structure Valid (work : Table α n) (s : State α n) : Prop where
  grown : Grown work s
  proper : Proper s
  unmatched : ∃ i, s.rowMate.get i = none

/-! ## Searches -/

omit [LawfulScalar α] in
/-- Several steps of a search change no mate, no dual variable and no tight column. -/
theorem framed_of_steps (h : ReflTransGen (Step work) s t) : Framed s t := by
  induction h with
  | refl => exact ⟨rfl, rfl, rfl, rfl, fun _ => id, fun _ _ => rfl⟩
  | tail _ hstep ih =>
    have h := hstep.framed
    refine ⟨h.rowMate_eq.trans ih.rowMate_eq, h.colMate_eq.trans ih.colMate_eq, h.rowDual_eq.trans ih.rowDual_eq,
      h.colDual_eq.trans ih.colDual_eq, fun i hi => h.reached i (ih.reached i hi), fun j hj => ?_⟩
    have hj' := ih.tight j hj
    exact (h.tight j (by rw [hj']; exact hj)).trans hj'

/-- A search keeps the trees and the numbers. -/
theorem Valid.of_steps (h : Valid work s) (hst : ReflTransGen (Step work) s t) : Valid work t := by
  induction hst with
  | refl => exact h
  | tail _ hstep ih =>
    exact ⟨hstep.grown ih.grown, hstep.proper ih.proper, by rw [hstep.framed.rowMate_eq]; exact ih.unmatched⟩

/-- A row that is not matched is a root. -/
theorem Valid.exists_reached (h : Valid work s) : ∃ i, s.rowMate.get i = none ∧ s.Reached i := by
  obtain ⟨i, hi⟩ := h.unmatched
  refine ⟨i, hi, ?_⟩
  simp [Reached, (h.grown.root_iff i).2 hi]

omit [LawfulScalar α] in
/-- A search that finds nothing leaves nothing to do. -/
theorem exhausted_of_search (h : s.search work = (none, t)) : ReflTransGen (Step work) s t ∧ Exhausted t := by
  obtain ⟨r, hst, hout⟩ := exists_outcome work s
  rw [h] at hout
  cases hout with
  | exhausted hrows hcols => exact ⟨hst, hrows, hcols⟩

/-! ## The four ways -/

/-- The path to a column that a search has found can be flipped. -/
theorem Valid.exists_reaching (h : Valid work t) {j : Fin n} {cols : List (Fin n)} (hrows : t.rowStack = [])
    (hcols : t.colStack = j :: cols) (hmate : t.colMate.get j = none) :
    ∃ u events, flip { t with colStack := cols } j = ⟨u, none, events⟩ ∧ Reaching t j u := by
  have htight := h.grown.colStack j (hcols ▸ List.mem_cons_self)
  obtain ⟨u, events, hflip, hu⟩ := h.grown.flip htight hmate cols
  exact ⟨u, events, hflip, hrows, htight, hmate, hu⟩

/-- Augmenting at the column that a search has found ends a round in one of two ways. -/
theorem Valid.turn_augment (h : Valid work t) (hst : ReflTransGen (Step work) s t) {j : Fin n} {cols : List (Fin n)}
    (hrows : t.rowStack = []) (hcols : t.colStack = j :: cols) (hmate : t.colMate.get j = none) :
    Turn work s effort (augment { t with colStack := cols } effort j) := by
  obtain ⟨u, events, hflip, hr⟩ := h.exists_reaching hrows hcols hmate
  have hmem : ∀ i, i ∈ u.reseed.rowStack ↔ u.rowMate.get i = none := (fresh_reseed u).mem_rowStack
  rw [augment, hflip]
  simp only
  split
  · rename_i hempty
    rw [List.isEmpty_iff] at hempty
    refine .completed hst hr fun i hi => ?_
    have := (hmem i).2 hi
    rw [hempty] at this
    exact absurd this List.not_mem_nil
  · rename_i hne
    rw [List.isEmpty_iff] at hne
    obtain ⟨i, hi⟩ := List.exists_mem_of_ne_nil _ hne
    exact .augmented hst hr ⟨i, (hmem i).1 hi⟩

/-- A search that finds a column has reached it, and flipping the path to it leads to a state. -/
theorem Valid.reaching_of_search (h : Valid work s) {j : Fin n} (hsearch : s.search work = (some j, t)) :
    ∃ r u events, ReflTransGen (Step work) s r ∧ Reaching r j u ∧ t.flip j = ⟨u, none, events⟩ := by
  obtain ⟨r, hst, hout⟩ := exists_outcome work s
  rw [hsearch] at hout
  cases hout with
  | found hrows hcols hmate =>
    obtain ⟨u, events, hflip, hr⟩ := (h.of_steps hst).exists_reaching hrows hcols hmate
    exact ⟨r, u, events, hst, hr, hflip⟩

/-- A search that finds nothing ends a round in one of two ways. -/
theorem Valid.turn_relax (h : Valid work t) (hst : ReflTransGen (Step work) s t) (hex : Exhausted t) :
    Turn work s effort (t.relax effort) := by
  obtain ⟨i, _, hi⟩ := h.exists_reached
  unfold relax
  split
  · rename_i hlt
    exact .abandoned hst hex hlt
  · rename_i hlt
    exact .relaxed hst hex (h.proper.admissible_leastSlack hi hlt)

/-- A round ends in one of four ways. -/
theorem Valid.turn_round (h : Valid work s) (effort : Effort) : Turn work s effort (s.round work effort) := by
  obtain ⟨t, hst, hout⟩ := exists_outcome work s
  have ht := h.of_steps hst
  unfold round
  generalize search work s = r at hout
  cases hout with
  | found hrows hcols hmate => exact ht.turn_augment hst hrows hcols hmate
  | exhausted hrows hcols => exact ht.turn_relax hst ⟨hrows, hcols⟩

/-! ## The beginning of a round -/

/-- The first round begins with sound trees and numbers. -/
theorem valid_start {least greatest : ℚ} (h : Between work least greatest) (hgreatest : 0 ≤ greatest) (hn : 0 < n) :
    Valid work (start work) where
  grown := by
    refine (fresh_start work).grown (fun i j => ?_) fun i j hij => ?_
    · simp [start, restart]
    · simp [start, restart] at hij
  proper := by
    refine ⟨fun i => ?_, fun i j hij => ?_⟩
    · obtain ⟨hfin, hnonneg, _⟩ := rowDual_start h hgreatest i
      exact ⟨hfin, hnonneg⟩
    · simp [start, restart] at hij
  unmatched := ⟨⟨0, hn⟩, by simp [start, restart]⟩

omit [LawfulScalar α] in
/-- A matched edge after an augmentation has a weight. -/
theorem Reaching.hasEdge (h : Grown work t) {j : Fin n} (hr : Reaching t j u) (i k : Fin n)
    (hik : u.rowMate.get i = some k) : HasEdge work i k := by
  rcases hr.flipped.new_edge i k hik with hold | ⟨hlabel, _⟩
  · exact h.mate_edge i k hold
  · exact (h.label i k hlabel).2.2

/-- A round that does not end the search leaves sound trees and numbers. -/
theorem Turn.valid {p : Progress α n} (hturn : Turn work s effort p) (h : Valid work s)
    (hunfinished : p.verdict = .unfinished) : Valid work p.state := by
  cases hturn with
  | augmented hst hr hrow =>
    have ht := h.of_steps hst
    refine ⟨(fresh_reseed _).grown hr.flipped.agree fun i k => hr.hasEdge ht.grown i k, ⟨fun i => ?_, fun i j hij => ?_⟩, hrow⟩
    · have hdual := ht.proper.rowDual i
      rw [← hr.flipped.rowDual_eq] at hdual
      exact hdual
    · exact nomatch ((fresh_reseed _).colLabel_eq j).symm.trans hij
  | completed _ _ _ => exact nomatch hunfinished
  | abandoned _ _ _ => exact nomatch hunfinished
  | relaxed hst hex hamount =>
    have ht := h.of_steps hst
    exact ⟨ht.grown.update _, hamount.proper_update ht.proper, ht.unmatched⟩

end PerfectMatching.PrimalDual.State
