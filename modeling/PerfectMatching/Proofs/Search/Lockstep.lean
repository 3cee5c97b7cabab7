import PerfectMatching.PrimalDual.Image
import PerfectMatching.Proofs.Scalar.Faithful
import PerfectMatching.Proofs.Search.Flip
import PerfectMatching.Proofs.Search.Numbers

/-!
# Searches in lockstep

A search compares numbers, and computes a new one only where it offers the slack of an edge or makes a dual update. So if a function
keeps the order of the numbers that satisfy some property (`Faithful`), and the numbers of a state satisfy it and so do the slacks of
its edges, which the function commutes with (`Alike`), then the image of a search is the search from the image, step by step
(`Alike.searchFor_map`). If it also commutes with the dual update that follows (`Movable`), the image of a round is the round from
the image (`Alike.round_map`).
-/

namespace PerfectMatching

variable {α β : Type} {n : ℕ}

/-! ## What does not depend on numbers -/

namespace PrimalDual.State

/-- An entry of a table with its weights changed. -/
@[simp] theorem get_mapTable (f : α → β) (work : Table α n) (i j : Fin n) :
    ((mapTable f work).get i).get j = ((work.get i).get j).map f := by
  simp [mapTable]

/-- The dual variable of a row in an image. -/
@[simp] theorem get_rowDual_map (f : α → β) (s : State α n) (i : Fin n) : (s.map f).rowDual.get i = f (s.rowDual.get i) :=
  get_map f s.rowDual i

/-- The dual variable of a column in an image. -/
@[simp] theorem get_colDual_map (f : α → β) (s : State α n) (j : Fin n) : (s.map f).colDual.get j = f (s.colDual.get j) :=
  get_map f s.colDual j

/-- The slack of a column in an image. -/
@[simp] theorem get_slack_map (f : α → β) (s : State α n) (j : Fin n) : (s.map f).slack.get j = f (s.slack.get j) :=
  get_map f s.slack j

/-- The image of a state after a visit. -/
theorem reach_map (f : α → β) (s : State α n) (i j : Fin n) : (reach s i j).map f = reach (s.map f) i j := by
  unfold reach
  rw [show (s.map f).rowLabel = s.rowLabel from rfl]
  split <;> rfl

/-- The image of a way back along a path. -/
theorem flipFrom_map (f : α → β) (rows : ℕ) (released : Option (Fin n)) (j : Fin n) (s : State α n) :
    (flipFrom rows released j s).map f = flipFrom rows released j (s.map f) := by
  induction rows generalizing released j s with
  | zero => rfl
  | succ rows ih =>
    rw [flipFrom, flipFrom, show (s.map f).colMate = s.colMate from rfl, show (s.map f).colLabel = s.colLabel from rfl]
    split
    · rfl
    · cases s.colLabel.get j with
      | none => rfl
      | some i =>
        simp only [show ((s.map f).pair i j).rowLabel = (s.pair i j).rowLabel from rfl]
        cases (s.pair i j).rowLabel.get i with
        | root => rfl
        | unreached => rfl
        | via above =>
          simp only [show (s.map f).pair i j = (s.pair i j).map f from rfl, ← ih]
          rfl

/-- The image of what walking back the path to a column leads to. -/
theorem flip_map (f : α → β) (s : State α n) (j : Fin n) : (s.flip j).map f = (s.map f).flip j :=
  flipFrom_map f (n + 1) none j s

end PrimalDual.State

variable [Scalar α] [Scalar β]

namespace PrimalDual.State

variable {f : α → β} {P : α → Prop} {work : Table α n} {s t : State α n} {i j : Fin n}

/-- The numbers of the state satisfy the property. -/
structure Numbers (P : α → Prop) (s : State α n) : Prop where
  rowDual : ∀ i, P (s.rowDual.get i)
  colDual : ∀ j, P (s.colDual.get j)
  slack : ∀ j, P (s.slack.get j)

/-- The numbers of the state satisfy the property, and so do the slacks of its edges, which the function commutes with. -/
structure Alike (f : α → β) (P : α → Prop) (work : Table α n) (s : State α n) : Prop extends Numbers P s where
  offer : ∀ i j w, (work.get i).get j = some w → P (s.rowDual.get i + s.colDual.get j - w) ∧
    f (s.rowDual.get i + s.colDual.get j - w) = f (s.rowDual.get i) + f (s.colDual.get j) - f w

/-! ## Searches -/

section Search

variable (hf : Faithful f P)

include hf

/-- The image of a column that has been offered a slack. -/
theorem offer_map {x : α} (hx : P x) (hj : P (s.slack.get j)) : (s.offer i j x).map f = (s.map f).offer i j (f x) := by
  unfold offer
  rw [get_slack_map, hf.positive_eq hj, hf.lt_eq hx hj, hf.positive_eq hx]
  split
  · simp [State.map, Vector.map_set]
  · rfl

/-- The image of a state after the scan of an edge. -/
theorem Alike.scanEdge_map (h : Alike f P work s) : (scanEdge work i s j).map f = scanEdge (mapTable f work) i (s.map f) j := by
  unfold scanEdge
  rw [get_mapTable, show (s.map f).rowMate = s.rowMate from rfl]
  split
  · rfl
  · cases hw : (work.get i).get j with
    | none => rfl
    | some w =>
      obtain ⟨hx, hcommute⟩ := h.offer i j w hw
      simp only [Option.map_some]
      rw [offer_map hf hx (h.slack j), hcommute]
      simp [State.map]

omit hf in
/-- Scanning an edge keeps the numbers alike. -/
theorem Alike.scanEdge (h : Alike f P work s) : Alike f P work (State.scanEdge work i s j) := by
  by_cases hex : ∃ x, Lowers work s i j x
  · obtain ⟨x, hx⟩ := hex
    rw [scanEdge_of_lowers hx]
    refine ⟨⟨h.rowDual, h.colDual, fun b => ?_⟩, h.offer⟩
    rw [get_set]
    split
    · obtain ⟨w, hw, rfl⟩ := hx.edge
      exact (h.offer i j w hw).1
    · exact h.slack b
  · rw [scanEdge_of_not_lowers (not_exists.1 hex)]
    exact h

/-- The image of a state after the scan of a row. -/
theorem Alike.scan_map (h : Alike f P work s) :
    (scan work i s).map f = scan (mapTable f work) i (s.map f) ∧ Alike f P work (scan work i s) := by
  unfold scan
  generalize List.finRange n = columns
  induction columns generalizing s with
  | nil => exact ⟨rfl, h⟩
  | cons j columns ih =>
    rw [List.foldl_cons, List.foldl_cons, ← h.scanEdge_map hf]
    exact ih h.scanEdge

omit hf in
/-- A visit keeps the numbers alike. -/
theorem Alike.reach (h : Alike f P work s) : Alike f P work (reach s i j) := by
  unfold State.reach
  split
  · exact h
  · exact ⟨⟨h.rowDual, h.colDual, h.slack⟩, h.offer⟩

omit hf in
/-- The numbers do not depend on the stacks. -/
theorem Alike.with_stacks (h : Alike f P work s) (rows cols : List (Fin n)) :
    Alike f P work { s with rowStack := rows, colStack := cols } := ⟨⟨h.rowDual, h.colDual, h.slack⟩, h.offer⟩

/-- The image of a search of so many steps is the search of so many steps from the image. -/
theorem Alike.searchFor_map (h : Alike f P work s) (steps : ℕ) :
    searchFor (mapTable f work) steps (s.map f) = (searchFor work steps s).map id (State.map f) ∧
      Alike f P work (searchFor work steps s).2 := by
  induction steps generalizing s with
  | zero => exact ⟨rfl, h⟩
  | succ steps ih =>
    have hrows : (s.map f).rowStack = s.rowStack := rfl
    have hcols : (s.map f).colStack = s.colStack := rfl
    have hmates : (s.map f).colMate = s.colMate := rfl
    unfold searchFor
    simp only [hrows, hcols, hmates]
    cases s.rowStack with
    | cons i rows =>
      obtain ⟨hscan, hnext⟩ := (h.with_stacks rows s.colStack).scan_map hf (i := i)
      obtain ⟨hsearch, hlast⟩ := ih hnext
      rw [hscan] at hsearch
      exact ⟨hsearch, hlast⟩
    | nil =>
      cases s.colStack with
      | nil => exact ⟨rfl, h⟩
      | cons j cols =>
        simp only
        cases s.colMate.get j with
        | none => exact ⟨rfl, h.with_stacks [] cols⟩
        | some i =>
          obtain ⟨hsearch, hlast⟩ := ih ((h.with_stacks [] cols).reach (i := i) (j := j))
          rw [reach_map] at hsearch
          exact ⟨hsearch, hlast⟩

/-- The image of a state has as many steps pending. -/
theorem Alike.pending_map (h : Alike f P work s) : (s.map f).pending = s.pending := by
  have hcount : (s.map f).slack.countP Scalar.positive = s.slack.countP Scalar.positive := by
    rw [countP_eq_card, countP_eq_card]
    congr 1
    refine Finset.filter_congr fun j _ => ?_
    rw [get_slack_map, hf.positive_eq (h.slack j)]
  rw [pending, hcount]
  rfl

/-- The image of a search is the search from the image. -/
theorem Alike.search_map (h : Alike f P work s) :
    search (mapTable f work) (s.map f) = (search work s).map id (State.map f) ∧ Alike f P work (search work s).2 := by
  rw [search, h.pending_map hf]
  exact h.searchFor_map hf s.pending

end Search

/-! ## Dual updates -/

/-- The amount of a dual update can be taken from and added to the numbers that the update changes, and the function commutes with
that. -/
structure Movable (f : α → β) (P : α → Prop) (s : State α n) (amount : α) : Prop where
  rowDual : ∀ i, s.Reached i → P (s.rowDual.get i - amount) ∧ f (s.rowDual.get i - amount) = f (s.rowDual.get i) - f amount
  colDual : ∀ j, Scalar.positive (s.slack.get j) = false →
    P (s.colDual.get j + amount) ∧ f (s.colDual.get j + amount) = f (s.colDual.get j) + f amount
  slack : ∀ i j, s.colLabel.get j = some i → Scalar.positive (s.slack.get j) = true →
    P (s.slack.get j - amount) ∧ f (s.slack.get j - amount) = f (s.slack.get j) - f amount

section Update

variable {amount : α} (hf : Faithful f P)

include hf

/-- The image of a slack after a dual update. -/
theorem Movable.slackAfter_map (hm : Movable f P s amount) (h : Numbers P s) (j : Fin n) :
    P (s.slackAfter amount j) ∧ f (s.slackAfter amount j) = (s.map f).slackAfter (f amount) j := by
  unfold slackAfter
  rw [get_slack_map, hf.positive_eq (h.slack j), show (s.map f).colLabel = s.colLabel from rfl]
  split
  · rename_i htake
    rw [Bool.and_eq_true, Option.isSome_iff_exists] at htake
    obtain ⟨hpos, i, hi⟩ := htake
    exact hm.slack i j hi hpos
  · exact ⟨h.slack j, rfl⟩

/-- A dual update keeps the property of the numbers. -/
theorem Movable.numbers (hm : Movable f P s amount) (h : Numbers P s) : Numbers P (s.update amount) := by
  refine ⟨fun i => ?_, fun j => ?_, fun j => ?_⟩
  · rw [get_rowDual_update]
    split
    · rename_i hi
      exact (hm.rowDual i (isReached_iff.1 hi)).1
    · exact h.rowDual i
  · rw [get_colDual_update]
    split
    · exact h.colDual j
    · rename_i hj
      exact (hm.colDual j (Bool.eq_false_iff.2 hj)).1
  · exact (get_ofFn (s.slackAfter amount) j).symm ▸ (hm.slackAfter_map hf h j).1

/-- The image of a state after a dual update. -/
theorem Movable.update_map (hm : Movable f P s amount) (h : Numbers P s) :
    (s.update amount).map f = (s.map f).update (f amount) := by
  have hrows : (s.update amount).rowDual.map f = ((s.map f).update (f amount)).rowDual := by
    refine Vector.ext fun i hi => ?_
    change ((s.update amount).rowDual.map f).get ⟨i, hi⟩ = ((s.map f).update (f amount)).rowDual.get ⟨i, hi⟩
    rw [get_map, get_rowDual_update, get_rowDual_update, show (s.map f).rowLabel = s.rowLabel from rfl, get_rowDual_map]
    split
    · rename_i hreached
      exact (hm.rowDual _ (isReached_iff.1 hreached)).2
    · rfl
  have hcols : (s.update amount).colDual.map f = ((s.map f).update (f amount)).colDual := by
    refine Vector.ext fun j hj => ?_
    change ((s.update amount).colDual.map f).get ⟨j, hj⟩ = ((s.map f).update (f amount)).colDual.get ⟨j, hj⟩
    rw [get_map, get_colDual_update, get_colDual_update, get_slack_map, hf.positive_eq (h.slack _), get_colDual_map]
    split
    · rfl
    · rename_i hpos
      exact (hm.colDual _ (Bool.eq_false_iff.2 hpos)).2
  have hslacks : (s.update amount).slack.map f = ((s.map f).update (f amount)).slack := by
    refine Vector.ext fun j hj => ?_
    change ((Vector.ofFn (s.slackAfter amount)).map f).get ⟨j, hj⟩ =
      (Vector.ofFn ((s.map f).slackAfter (f amount))).get ⟨j, hj⟩
    rw [get_map, get_ofFn, get_ofFn]
    exact (hm.slackAfter_map hf h _).2
  have hstack : (s.update amount).colStack = ((s.map f).update (f amount)).colStack := by
    have htightens : s.tightens amount = (s.map f).tightens (f amount) := by
      funext j
      obtain ⟨hP, heq⟩ := hm.slackAfter_map hf h j
      rw [tightens, tightens, get_slack_map, ← heq, hf.positive_eq (h.slack j), hf.positive_eq hP]
    simp only [update, htightens]
    rfl
  unfold State.map
  rw [hrows, hcols, hslacks, hstack]
  rfl

/-- The least dual variable of a row that an image has reached. -/
theorem Numbers.leastDual_map (h : Numbers P s) :
    f s.leastDual = (s.map f).leastDual ∧ P s.leastDual := by
  have hall : ∀ x ∈ ((List.finRange n).filter fun i => (s.rowLabel.get i).isReached).map s.rowDual.get, P x := by
    intro x hx
    obtain ⟨i, _, rfl⟩ := List.mem_map.1 hx
    exact h.rowDual i
  obtain ⟨hmap, hP⟩ := hf.map_least hall
  refine ⟨hmap.trans ?_, hP⟩
  rw [List.map_map, leastDual, show (s.map f).rowDual.get = f ∘ s.rowDual.get from funext (get_rowDual_map f s)]
  rfl

/-- The least slack of a column of an image that is not tight. -/
theorem Numbers.leastSlack_map (h : Numbers P s) :
    f s.leastSlack = (s.map f).leastSlack ∧ P s.leastSlack := by
  have hall : ∀ x ∈ s.slack.toList, P x := by
    rw [toList_eq_map_get]
    intro x hx
    obtain ⟨j, _, rfl⟩ := List.mem_map.1 hx
    exact h.slack j
  obtain ⟨hmap, hP⟩ := hf.map_least fun x hx => hall x (List.mem_of_mem_filter hx)
  refine ⟨hmap.trans ?_, hP⟩
  have hlist : (s.map f).slack.toList = s.slack.toList.map f := Vector.toList_map
  rw [leastSlack, hlist, List.filter_map]
  congr 2
  exact List.filter_congr fun x hx => (hf.positive_eq (hall x hx)).symm

/-- The image of what follows when a search has found nothing. -/
theorem Numbers.relax_map (h : Numbers P s) (hm : Scalar.lt s.leastDual s.leastSlack = false → Movable f P s s.leastSlack)
    (effort : Effort) : (s.relax effort).map f = (s.map f).relax effort ∧ Numbers P (s.relax effort).state := by
  obtain ⟨hdual, hPdual⟩ := h.leastDual_map hf
  obtain ⟨hslack, hPslack⟩ := h.leastSlack_map hf
  unfold relax
  rw [← hdual, ← hslack, hf.lt_eq hPdual hPslack]
  split
  · exact ⟨rfl, h⟩
  · rename_i hlt
    have hm := hm (Bool.eq_false_iff.2 hlt)
    exact ⟨by rw [Progress.map, hm.update_map hf h]; rfl, hm.numbers hf h⟩

end Update

/-! ## Rounds -/

omit [Scalar α] in
/-- Walking back along a path changes no number. -/
theorem Numbers.flipFrom (h : Numbers P s) (rows : ℕ) (released : Option (Fin n)) (j : Fin n) :
    Numbers P (State.flipFrom rows released j s).state := by
  obtain ⟨hrow, hcol, hslack⟩ := flipFrom_numbers rows released j s
  exact ⟨by rw [hrow]; exact h.rowDual, by rw [hcol]; exact h.colDual, by rw [hslack]; exact h.slack⟩

/-- The image of what follows when a search has found a column. -/
theorem Numbers.augment_map (hf : Faithful f P) (h : Numbers P s) (effort : Effort) (j : Fin n) :
    (s.augment effort j).map f = (s.map f).augment effort j ∧ Numbers P (s.augment effort j).state := by
  have hflip := flip_map f s j
  have hnumbers : Numbers P (s.flip j).state := h.flipFrom (n + 1) none j
  unfold augment
  rw [← hflip]
  generalize s.flip j = trail at hnumbers
  obtain ⟨t, fault, events⟩ := trail
  cases fault with
  | some cause => exact ⟨rfl, hnumbers⟩
  | none =>
    have hreseed : t.reseed.map f = (t.map f).reseed := by
      simp [State.map, reseed, hf.map_infinity]
    have hstack : t.reseed.rowStack = (t.map f).reseed.rowStack := rfl
    have hfresh : Numbers P t.reseed :=
      ⟨hnumbers.rowDual, hnumbers.colDual, fun j => by simpa only [reseed, get_replicate] using hf.infinity⟩
    simp only [Trail.map, ← hstack]
    split
    · exact ⟨by rw [Progress.map, hreseed], hfresh⟩
    · refine ⟨?_, hfresh.rowDual, hfresh.colDual, hfresh.slack⟩
      rw [← hreseed]
      rfl

/-- The image of a round is the round from the image, if the function commutes with the dual update. -/
theorem Alike.round_map (hf : Faithful f P) (h : Alike f P work s)
    (hm : ∀ t, s.search work = (none, t) → Scalar.lt t.leastDual t.leastSlack = false → Movable f P t t.leastSlack)
    (effort : Effort) :
    (s.round work effort).map f = (s.map f).round (mapTable f work) effort ∧ Numbers P (s.round work effort).state := by
  obtain ⟨hsearch, hnext⟩ := h.search_map hf
  unfold round
  rw [hsearch]
  cases hfound : s.search work with
  | mk found t =>
    rw [hfound] at hnext
    cases found with
    | some j => exact hnext.toNumbers.augment_map hf effort j
    | none => exact hnext.toNumbers.relax_map hf (hm t hfound) effort

/-! ## The beginning -/

/-- The image of the greatest weight of a row. -/
theorem greatest_map (hf : Faithful f P) {row : Vector (Option α) n} (hrow : ∀ j w, row.get j = some w → P w) :
    f (greatest row) = greatest (row.map (Option.map f)) ∧ P (greatest row) := by
  have hall : ∀ w ∈ row.toList.filterMap id, P w := by
    intro w hw
    rw [toList_eq_map_get] at hw
    obtain ⟨_, hmem, hj⟩ := List.mem_filterMap.1 hw
    obtain ⟨j, _, rfl⟩ := List.mem_map.1 hmem
    exact hrow j w hj
  constructor
  · have hmap := Faithful.map_foldl LawfulScalar.max_eq_or hf.map_max hf.zero hall
    have hlist : (row.map (Option.map f)).toList.filterMap id = (row.toList.filterMap id).map f := by
      rw [Vector.toList_map, List.filterMap_map, List.map_filterMap]
      rfl
    rw [greatest, greatest, hlist, ← hf.map_zero]
    exact hmap
  · rcases List.mem_cons.1 (LawfulScalar.foldl_mem LawfulScalar.max_eq_or (row.toList.filterMap id) Scalar.zero) with heq | hmem
    · rw [greatest, heq]
      exact hf.zero
    · exact hall _ hmem

/-- The image of the beginning of a search is the beginning of a search of the image. -/
theorem start_map (hf : Faithful f P) (hwork : ∀ i j w, (work.get i).get j = some w → P w) :
    (start work).map f = start (mapTable f work) ∧ Numbers P (start work) := by
  constructor
  · have hrows : (work.map greatest).map f = (mapTable f work).map greatest := by
      refine Vector.ext fun i hi => ?_
      have hmap := (greatest_map hf (hwork ⟨i, hi⟩)).1
      simpa [mapTable, get_eq_getElem] using hmap
    simp [State.map, start, restart, hrows, hf.map_zero, hf.map_infinity]
  · refine ⟨fun i => ?_, fun j => ?_, fun j => ?_⟩
    · simpa [start, restart] using (greatest_map hf (hwork i)).2
    · simpa only [start, restart, get_replicate] using hf.zero
    · simpa only [start, restart, get_replicate] using hf.infinity

end PrimalDual.State

end PerfectMatching
