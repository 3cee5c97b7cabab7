import PerfectMatching.Proofs.Binary64.Lawful
import PerfectMatching.Proofs.Calls

/-!
# Augmenting the matching by one edge

Walking back from a column that a search has found pairs every row on the way with the column below it. The labels lead back along a
path that meets no node twice, so no pairing undoes another, and the matching is exchanged along an alternating path of allowed edges:
what is matched on it is set free, what is not is matched, and nothing else changes. Main statement: whatever is rounded, flipping
the path to a column that a search has found does this, and matches one root and the column (`PrimalDual.solve_augments`).
-/

namespace PerfectMatching.PrimalDual

open LawfulScalar Relation State

variable {α : Type} {n : ℕ} {work : Table α n} {s t u : State α n} {root j : Fin n} {path : List (Fin n × Fin n)}

/-- The edges are those of an alternating path of allowed edges from column `j` back to the row `root`, which is not matched: from a column
by an edge that is not matched to a row, and from a row by its matched edge to a column. It meets no node twice. -/
inductive AlternatingPath (work : Table α n) (rowMate : Vector (Option (Fin n)) n) (root : Fin n) :
    Fin n → List (Fin n × Fin n) → Prop where
  | root {j : Fin n} : rowMate.get root = none → (work.get root).get j ≠ none → AlternatingPath work rowMate root j [(root, j)]
  | step {i j k : Fin n} {edges : List (Fin n × Fin n)} : AlternatingPath work rowMate root k edges → rowMate.get i = some k →
      (work.get i).get k ≠ none → (work.get i).get j ≠ none → (∀ e ∈ edges, e.1 ≠ i ∧ e.2 ≠ j) →
      AlternatingPath work rowMate root j ((i, j) :: (i, k) :: edges)

/-- The state `u` is `t` after the matching has been exchanged along an alternating path of the given edges: its ends, a root and a column,
are matched now, every node that was matched still is, and the nodes off the path have kept their mates. -/
structure State.AugmentedBy (work : Table α n) (t : State α n) (root j : Fin n) (edges : List (Fin n × Fin n)) (u : State α n) :
    Prop where
  path : AlternatingPath work t.rowMate root j edges
  root_label : t.rowLabel.get root = .root
  root_free : t.rowMate.get root = none
  col_free : t.colMate.get j = none
  agree : u.MatesAgree
  mates_only : u = { t with rowMate := u.rowMate, colMate := u.colMate }
  row_matched : ∀ a, u.rowMate.get a ≠ none ↔ t.rowMate.get a ≠ none ∨ a = root
  col_matched : ∀ b, u.colMate.get b ≠ none ↔ t.colMate.get b ≠ none ∨ b = j
  mate_iff : ∀ a b, u.rowMate.get a = some b ↔ Xor (t.rowMate.get a = some b) ((a, b) ∈ edges)
  row_off : ∀ a, (∀ e ∈ edges, e.1 ≠ a) → u.rowMate.get a = t.rowMate.get a
  col_off : ∀ b, (∀ e ∈ edges, e.2 ≠ b) → u.colMate.get b = t.colMate.get b

/-! ## Pairing along a path -/

/-- Matches the row and the column of every edge to each other, one edge after the other. -/
def State.pairAll (s : State α n) (path : List (Fin n × Fin n)) : State α n :=
  { s with
    rowMate := path.foldl (fun v e => v.set e.1 (some e.2) e.1.isLt) s.rowMate
    colMate := path.foldl (fun v e => v.set e.2 (some e.1) e.2.isLt) s.colMate }

/-- Walking back to a root pairs all edges of a path that the labels lead along. -/
theorem State.exists_traced_of_flipFrom {rows : ℕ} {released : Option (Fin n)} {events : List (Event α)}
    (h : flipFrom rows released j s = ⟨u, none, events⟩) : ∃ root path, s.Traced root j path ∧ u = s.pairAll path := by
  induction rows generalizing released j s events with
  | zero => cases h
  | succ rows ih =>
    unfold flipFrom at h
    split at h
    · cases h
    split at h
    · cases h
    rename_i i hlabel
    simp only at h
    split at h
    · rename_i hroot
      cases h
      exact ⟨i, [(i, j)], .root hlabel hroot, rfl⟩
    · cases h
    · rename_i above hvia
      obtain ⟨hstate, hfault, _⟩ := Trail.mk.inj h
      have heq : flipFrom rows (some i) above (s.pair i j) =
          ⟨u, none, (flipFrom rows (some i) above (s.pair i j)).events⟩ := by
        rw [← hstate, ← hfault]
      obtain ⟨root, path, hpath, rfl⟩ := ih heq
      exact ⟨root, (i, j) :: path, (hpath.of_labels (t := s) rfl rfl).via hlabel hvia, rfl⟩

/-- The edges that a path of labels changes: those it pairs, and those that its rows are matched by. -/
def State.exchanged (s : State α n) (path : List (Fin n × Fin n)) : List (Fin n × Fin n) :=
  path.flatMap fun e => e :: ((s.rowMate.get e.1).map (e.1, ·)).toList

/-- An edge is changed if it is on the path, or if its row is and it is matched. -/
theorem State.mem_exchanged {a b : Fin n} :
    (a, b) ∈ s.exchanged path ↔ (a, b) ∈ path ∨ a ∈ path.map Prod.fst ∧ s.rowMate.get a = some b := by
  unfold exchanged
  simp only [List.mem_flatMap, List.mem_cons, Option.mem_toList, Option.map_eq_some_iff, List.mem_map]
  constructor
  · rintro ⟨e, he, rfl | ⟨c, hc, heq⟩⟩
    · exact Or.inl he
    · obtain ⟨rfl, rfl⟩ := Prod.mk.inj heq
      exact Or.inr ⟨⟨e, he, rfl⟩, hc⟩
  · rintro (he | ⟨⟨e, he, rfl⟩, hb⟩)
    · exact ⟨_, he, Or.inl rfl⟩
    · exact ⟨e, he, Or.inr ⟨b, hb, rfl⟩⟩

section Traced

variable (h : s.Traced root j path)

include h

/-- A row on a path is matched to the column below it after all edges have been paired. -/
theorem State.Traced.rowMate_pairAll {e : Fin n × Fin n} (he : e ∈ path) : (s.pairAll path).rowMate.get e.1 = some e.2 :=
  get_foldl_set_of_mem h.nodup.1 he s.rowMate

/-- A column on a path is matched to the row above it after all edges have been paired. -/
theorem State.Traced.colMate_pairAll {e : Fin n × Fin n} (he : e ∈ path) : (s.pairAll path).colMate.get e.2 = some e.1 :=
  get_foldl_set_of_mem h.nodup.2 he s.colMate

end Traced

/-! ## Augmenting -/

section Grown

variable [Scalar α] (hs : Grown work s) (h : s.Traced root j path)

include hs h

/-- The edges that a path of labels changes lead to columns on it. -/
theorem State.Grown.snd_mem_of_exchanged {e : Fin n × Fin n} (he : e ∈ s.exchanged path) : e.2 ∈ path.map Prod.snd := by
  rcases mem_exchanged.1 he with he | ⟨hrow, hmate⟩
  · exact List.mem_map_of_mem he
  · rcases h.row_cases hrow with heq | ⟨k, hk, hvia⟩
    · rw [heq, (hs.root_iff root).1 h.root_spec.1] at hmate
      exact nomatch hmate
    · obtain rfl := Option.some.inj ((hs.via _ k hvia).1.symm.trans hmate)
      exact hk

/-- The edges that a path of labels changes are those of an alternating path. -/
theorem State.Grown.alternatingPath : AlternatingPath work s.rowMate root j (s.exchanged path) := by
  induction h with
  | @root j hlabel hroot =>
    have hfree := (hs.root_iff root).1 hroot
    obtain ⟨w, hw, _⟩ := (hs.label root j hlabel).2.2
    rw [show s.exchanged [(root, j)] = [(root, j)] by simp [exchanged, hfree]]
    exact .root hfree (by simp [hw])
  | @via i j k path hpath hlabel hvia ih =>
    have hmate := (hs.via i k hvia).1
    obtain ⟨w, hw, _⟩ := hs.mate_edge i k hmate
    obtain ⟨x, hx, _⟩ := (hs.label i j hlabel).2.2
    have hnodup := (hpath.via hlabel hvia).nodup
    simp only [List.map_cons, List.nodup_cons] at hnodup
    rw [show s.exchanged ((i, j) :: path) = (i, j) :: (i, k) :: s.exchanged path by simp [exchanged, hmate]]
    refine ih.step hmate (by simp [hw]) (by simp [hx]) fun e he => ⟨?_, ?_⟩
    · rintro rfl
      rcases mem_exchanged.1 he with he | ⟨he, _⟩
      · exact hnodup.1.1 (List.mem_map_of_mem he)
      · exact hnodup.1.1 he
    · rintro rfl
      exact hnodup.2.1 (hs.snd_mem_of_exchanged hpath he)

/-- A row on a path of labels is matched or the root. -/
theorem State.Grown.matched_or_root {a : Fin n} (ha : a ∈ path.map Prod.fst) : s.rowMate.get a ≠ none ∨ a = root := by
  rcases h.row_cases ha with rfl | ⟨k, _, hvia⟩
  · exact Or.inr rfl
  · exact Or.inl (by simp [(hs.via a k hvia).1])

/-- A column on a path of labels is matched or the one that the path leads from. -/
theorem State.Grown.matched_or_eq {b : Fin n} (hb : b ∈ path.map Prod.snd) : s.colMate.get b ≠ none ∨ b = j := by
  rcases h.col_cases hb with rfl | ⟨i, hvia⟩
  · exact Or.inr rfl
  · exact Or.inl (by simp [(hs.agree i b).1 (hs.via i b hvia).1])

/-- After pairing, the matched edges are those that were matched and are not changed, and those that were not matched and are changed. -/
theorem State.Grown.mate_pairAll (a b : Fin n) :
    (s.pairAll path).rowMate.get a = some b ↔ Xor (s.rowMate.get a = some b) ((a, b) ∈ s.exchanged path) := by
  rw [mem_exchanged]
  by_cases ha : a ∈ path.map Prod.fst
  · obtain ⟨⟨a, c⟩, hac, rfl⟩ := List.mem_map.1 ha
    have hmate : s.rowMate.get a ≠ some c := (hs.label a c (h.label _ hac)).2.1
    have hiff : (a, b) ∈ path ↔ c = b := by
      constructor
      · intro hab
        exact congrArg Prod.snd (List.inj_on_of_nodup_map h.nodup.1 hac hab rfl)
      · rintro rfl
        exact hac
    rw [h.rowMate_pairAll hac, hiff]
    by_cases hb : s.rowMate.get a = some b
    · have hne : c ≠ b := by
        rintro rfl
        exact hmate hb
      simp [Xor, hb, hne, ha]
    · simp [Xor, hb]
  · have hab : (a, b) ∉ path := fun hab => ha (List.mem_map_of_mem hab)
    rw [show (s.pairAll path).rowMate.get a = s.rowMate.get a from get_foldl_set_of_notMem ha _]
    simp [Xor, ha, hab]

/-- Pairing along a path of labels from a column that is not matched exchanges the matching along an alternating path. -/
theorem State.Grown.augmentedBy (hfree : s.colMate.get j = none) (hagree : (s.pairAll path).MatesAgree) :
    s.AugmentedBy work root j (s.exchanged path) (s.pairAll path) := by
  obtain ⟨hroot, hmem⟩ := h.root_spec
  have hrow : ∀ a, a ∉ path.map Prod.fst → (s.pairAll path).rowMate.get a = s.rowMate.get a := fun a ha =>
    get_foldl_set_of_notMem ha _
  have hcol : ∀ b, b ∉ path.map Prod.snd → (s.pairAll path).colMate.get b = s.colMate.get b := fun b hb =>
    get_foldl_set_of_notMem hb _
  have hsub : ∀ e ∈ path, e ∈ s.exchanged path := fun e he => mem_exchanged.2 (Or.inl he)
  refine ⟨hs.alternatingPath h, hroot, (hs.root_iff root).1 hroot, hfree, hagree, rfl, fun a => ?_, fun b => ?_,
    hs.mate_pairAll h, fun a ha => hrow a ?_, fun b hb => hcol b ?_⟩
  · by_cases ha : a ∈ path.map Prod.fst
    · refine iff_of_true ?_ (hs.matched_or_root h ha)
      obtain ⟨e, he, rfl⟩ := List.mem_map.1 ha
      simp [h.rowMate_pairAll he]
    · have hne : a ≠ root := by
        rintro rfl
        exact ha hmem
      simp [hrow a ha, hne]
  · by_cases hb : b ∈ path.map Prod.snd
    · refine iff_of_true ?_ (hs.matched_or_eq h hb)
      obtain ⟨e, he, rfl⟩ := List.mem_map.1 hb
      simp [h.colMate_pairAll he]
    · have hne : b ≠ j := by
        rintro rfl
        exact hb h.mem_cols
      simp [hcol b hb, hne]
  · intro hmem
    obtain ⟨e, he, rfl⟩ := List.mem_map.1 hmem
    exact ha e (hsub e he) rfl
  · intro hmem
    obtain ⟨e, he, rfl⟩ := List.mem_map.1 hmem
    exact hb e (hsub e he) rfl

end Grown

variable [Scalar α] [LawfulScalar α] {least greatest : ℚ} {effort : Effort}

/-- Flipping the path to a column that a search has found comes to a root, and exchanges the matching along an alternating path. -/
theorem Stage.exists_augmentedBy (hwork : Between work least greatest) (hgreatest : 0 ≤ greatest) (hn : 0 < n)
    (hstage : Stage work s effort) (hsearch : s.search work = (some j, t)) :
    t.MatesAgree ∧ ∃ u events root edges, t.flip j = ⟨u, none, events⟩ ∧ t.AugmentedBy work root j edges u := by
  obtain ⟨r, hst, hout⟩ := exists_outcome work s
  have hv := (hstage.valid hwork hgreatest hn).of_steps hst
  rw [hsearch] at hout
  cases hout with
  | @found j cols hrows hcols hmate =>
    refine ⟨hv.grown.agree, ?_⟩
    obtain ⟨u, events, hflip, hreaching⟩ := hv.exists_reaching hrows hcols hmate
    obtain ⟨root, path, hpath, rfl⟩ := exists_traced_of_flipFrom hflip
    -- Only the stack of the columns has changed since the last step.
    have h := hv.grown.augmentedBy (hpath.of_labels (t := r) rfl rfl) hmate hreaching.flipped.agree
    exact ⟨_, events, root, _, hflip, h.path, h.root_label, h.root_free, h.col_free, h.agree, rfl, h.row_matched, h.col_matched,
      h.mate_iff, h.row_off, h.col_off⟩

/-- If the weights pass the range check, whatever is rounded: whenever a search of the call has found a column, flipping the path to it
comes to a root, the mates agree before and after, and the matching is exchanged along an alternating path of allowed edges. -/
theorem solve_augments (m : PrimalDual α n) {goal : Goal} {w : Weights α} (h : w.n = n) {least greatest : α}
    (hbounds : bounds? goal w = some (least, greatest))
    (hshift : isShiftable least greatest (offsetOf w least greatest) = true) :
    let work := shift goal (offsetOf w least greatest) w h
    m.solve goal w = searchTable goal (offsetOf w least greatest) work ∧
      ∀ s effort t j, Stage work s effort → s.search work = (some j, t) →
        t.MatesAgree ∧ ∃ u events root edges, t.flip j = ⟨u, none, events⟩ ∧ t.AugmentedBy work root j edges u := by
  intro work
  obtain ⟨hwork, _, hpos, hle⟩ := between_shift hbounds hshift h
  have hn : 0 < n := h ▸ pos_of_bounds hbounds
  exact ⟨solve_eq_searchTable m h hn hbounds hshift, fun s effort t j hstage hsearch =>
    hstage.exists_augmentedBy hwork (hpos.le.trans hle) hn hsearch⟩

/-- With the weights `2`, `2` and `1` the third search finds the second column, and flipping the path to it moves the second row from the
first column to the second. -/
theorem solve_augments_two :
    let w : Weights Float := ⟨2, #v[some (Float.ofBits 0x4000000000000000), none, some (Float.ofBits 0x4000000000000000),
      some (Float.ofBits 0x3ff0000000000000)]⟩
    let one := Float.ofBits 0x3ff0000000000000
    let two := Float.ofBits 0x4000000000000000
    let work : Table Float 2 := shift .max (offsetOf w one two) w rfl
    let first := (State.start work).round work ⟨0, 0⟩
    let second := first.state.round work first.effort
    let found := second.state.search work
    bounds? .max w = some (one, two) ∧ isShiftable one two (offsetOf w one two) = true ∧ found.1 = some 1 ∧
      found.2.rowMate = #v[none, some 0] ∧ (found.2.flip 1).state.rowMate = #v[some 0, some 1] ∧
      ∃ u events root edges, found.2.flip 1 = ⟨u, none, events⟩ ∧ found.2.AugmentedBy work root 1 edges u := by
  intro w one two work first second found
  have hbounds : bounds? .max w = some (one, two) := by decide +kernel
  have hshift : isShiftable one two (offsetOf w one two) = true := by decide +kernel
  have hfirst : Stage work first.state first.effort := .next .start (by decide +kernel)
  have hsecond : Stage work second.state second.effort := hfirst.next (by decide +kernel)
  have hfound : found.1 = some 1 := by decide +kernel
  have hsearch : second.state.search work = (some 1, found.2) := by rw [← hfound]
  exact ⟨hbounds, hshift, hfound, by decide +kernel, by decide +kernel,
    ((solve_augments (new 2) rfl hbounds hshift).2 _ _ _ _ hsecond hsearch).2⟩

end PerfectMatching.PrimalDual
