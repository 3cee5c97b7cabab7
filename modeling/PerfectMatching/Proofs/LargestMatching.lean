import Mathlib.Logic.Equiv.Fintype
import PerfectMatching.Proofs.Enumeration

/-!
# The number of pairs an enumeration reports

If no permutation is perfect, the enumeration reports the most allowed edges on one of them. The allowed edges on a permutation
are a matching (`Weights.isMatching_edgesOn`), and every matching lies on a permutation (`Weights.IsMatching.exists_perm`), which the
enumeration passes. Hence the number reported is that of the edges of a largest matching (`Enumeration.solve_noPerfectMatching`).
-/

namespace PerfectMatching

variable {α : Type} {w : Weights α} {columns : List ℕ}

namespace Weights

/-! ## The allowed edges on a permutation -/

/-- The allowed edges from the first row to the first column of a list, from the second to the second, and so on. -/
def edgesOn (w : Weights α) (columns : List ℕ) : List (ℕ × ℕ) :=
  (columns.zipIdx.map Prod.swap).filter fun e => (w.get? e.1 e.2).join.isSome

/-- An edge is allowed if its row and its column exist and there is a weight at their place. -/
theorem allows_iff {i j : ℕ} (hi : i < w.n) (hj : j < w.n) : w.Allows i j ↔ (w.get? i j).join.isSome = true := by
  rw [w.get?_eq_edge ⟨i, hi⟩ ⟨j, hj⟩]
  exact ⟨fun ⟨_, _, h⟩ => h, fun h => ⟨hi, hj, h⟩⟩

/-- The edges on a list of columns lead from the places to the columns. -/
theorem mem_edgesOn {i j : ℕ} : (i, j) ∈ w.edgesOn columns ↔ columns[i]? = some j ∧ (w.get? i j).join.isSome = true := by
  simp only [edgesOn, List.mem_filter, List.mem_map, Prod.exists, Prod.swap_prod_mk, Prod.mk.injEq]
  refine and_congr_left fun _ => ⟨?_, fun h => ⟨j, i, List.mem_zipIdx_iff_getElem?.2 h, rfl, rfl⟩⟩
  rintro ⟨_, _, h, rfl, rfl⟩
  exact List.mem_zipIdx_iff_getElem?.1 h

/-- As many edges are on a list of columns as are counted. -/
theorem length_edgesOn (w : Weights α) (columns : List ℕ) : (w.edgesOn columns).length = Enumeration.countAllowed w columns := by
  rw [edgesOn, ← List.countP_eq_length_filter, List.countP_map]
  rfl

/-- The allowed edges on a permutation are a matching. -/
theorem isMatching_edgesOn (hperm : columns.Perm (List.range w.n)) : w.IsMatching (w.edgesOn columns) := by
  have hsub : (w.edgesOn columns).Sublist (columns.zipIdx.map Prod.swap) := List.filter_sublist
  refine ⟨fun ⟨i, j⟩ he => ?_, (hsub.map Prod.fst).nodup ?_, (hsub.map Prod.snd).nodup ?_⟩
  · obtain ⟨hget, hsome⟩ := mem_edgesOn.1 he
    obtain ⟨hi, rfl⟩ := List.getElem?_eq_some_iff.1 hget
    have hcol := List.mem_range.1 (hperm.mem_iff.1 (List.getElem_mem hi))
    rw [hperm.length_eq, List.length_range] at hi
    exact (allows_iff hi hcol).2 hsome
  · rw [List.map_map, show Prod.fst ∘ Prod.swap = @Prod.snd ℕ ℕ from rfl, List.zipIdx_map_snd]
    exact List.nodup_range'
  · rw [List.map_map, show Prod.snd ∘ Prod.swap = @Prod.fst ℕ ℕ from rfl, List.zipIdx_map_fst]
    exact hperm.nodup_iff.2 List.nodup_range

/-- A permutation with as many allowed edges as rows is perfect. -/
theorem isPerfect_of_countAllowed (hperm : columns.Perm (List.range w.n)) (h : Enumeration.countAllowed w columns = w.n) :
    w.IsPerfect columns := by
  have hlength : columns.zipIdx.length = w.n := by rw [List.length_zipIdx, hperm.length_eq, List.length_range]
  have hall := List.countP_eq_length.1 (h.trans hlength.symm)
  refine ⟨hperm, fun i hi => ?_⟩
  have hrow : i < w.n := by rwa [hperm.length_eq, List.length_range] at hi
  have hcol := List.mem_range.1 (hperm.mem_iff.1 (List.getElem_mem hi))
  exact (allows_iff hrow hcol).2 (hall (columns[i], i) (List.mem_zipIdx_iff_getElem?.2 (List.getElem?_eq_getElem hi)))

/-! ## Matchings lie on permutations -/

/-- There is a permutation on which all edges of a matching lie. -/
theorem IsMatching.exists_perm {edges : List (ℕ × ℕ)} (h : w.IsMatching edges) :
    ∃ e : Equiv.Perm (Fin w.n), ∀ p ∈ edges, (columnsOf e)[p.1]? = some p.2 := by
  have hlt : ∀ p : {p // p ∈ edges}, p.val.1 < w.n ∧ p.val.2 < w.n := fun p => by
    obtain ⟨hi, hj, _⟩ := h.allowed p.val p.property
    exact ⟨hi, hj⟩
  let row : {p // p ∈ edges} → Fin w.n := fun p => ⟨p.val.1, (hlt p).1⟩
  let col : {p // p ∈ edges} → Fin w.n := fun p => ⟨p.val.2, (hlt p).2⟩
  have hrow : Function.Injective row := fun p q heq =>
    Subtype.ext (List.inj_on_of_nodup_map h.rows_nodup p.property q.property (congrArg Fin.val heq))
  have hcol : Function.Injective col := fun p q heq =>
    Subtype.ext (List.inj_on_of_nodup_map h.cols_nodup p.property q.property (congrArg Fin.val heq))
  -- The matching takes its rows to its columns, one to one, and the rows left over are as many as the columns left over.
  let pairs : Set.range row ≃ Set.range col := (Equiv.ofInjective row hrow).symm.trans (Equiv.ofInjective col hcol)
  classical
  refine ⟨pairs.extendSubtype, fun p hp => ?_⟩
  have happly : pairs.extendSubtype (row ⟨p, hp⟩) = col ⟨p, hp⟩ := by
    rw [Equiv.extendSubtype_apply_of_mem _ _ ⟨⟨p, hp⟩, rfl⟩]
    simp [pairs]
  exact (getElem?_columnsOf _ (row ⟨p, hp⟩)).trans (congrArg (some ∘ Fin.val) happly)

/-- Some permutation has at least as many allowed edges as a matching has edges. -/
theorem IsMatching.exists_le_countAllowed {edges : List (ℕ × ℕ)} (h : w.IsMatching edges) :
    ∃ columns ∈ Permutations.all w.n, edges.length ≤ Enumeration.countAllowed w columns := by
  obtain ⟨e, he⟩ := h.exists_perm
  refine ⟨columnsOf e, Permutations.mem_all.2 (columnsOf_perm e), ?_⟩
  rw [← length_edgesOn]
  refine (h.rows_nodup.of_map.subperm fun p hp => mem_edgesOn.2 ⟨he p hp, ?_⟩).length_le
  obtain ⟨hi, hj, _⟩ := h.allowed p hp
  exact (allows_iff hi hj).1 (h.allowed p hp)

end Weights

namespace Enumeration

variable [Scalar α] {n : ℕ} {goal : Goal}

/-! ## What is counted -/

/-- What has been counted of some permutations: no permutation with a total has been lost, and the number kept is the most allowed
edges on one without a total. -/
structure Counts (w : Weights α) (l : List (List ℕ)) (tally : Tally α) : Prop where
  none_of : tally.best = none → ∀ columns ∈ l, (w.total? columns).join = none
  le_matched : ∀ columns ∈ l, (w.total? columns).join = none → countAllowed w columns ≤ tally.matched
  matched_of : tally.matched = 0 ∨ ∃ columns ∈ l, countAllowed w columns = tally.matched

/-- The allowed edges on a permutation without a total are counted. -/
theorem add_of_none {tally : Tally α} (h : (w.total? columns).join = none) :
    tally.add goal w columns = { tally with matched := max tally.matched (countAllowed w columns) } := by
  rw [Tally.add, h]

/-- After a permutation with a total some permutation is kept, and nothing is counted. -/
theorem add_of_some {tally : Tally α} {total : α} (h : (w.total? columns).join = some total) :
    (tally.add goal w columns).best ≠ none ∧ (tally.add goal w columns).matched = tally.matched := by
  simp only [Tally.add, h]
  cases hkept : tally.best with
  | none => exact ⟨nofun, rfl⟩
  | some kept =>
    dsimp only
    split
    · exact ⟨hkept ▸ nofun, rfl⟩
    · exact ⟨nofun, rfl⟩

/-- What is counted after one more permutation. -/
theorem Counts.add {l : List (List ℕ)} {tally : Tally α} (h : Counts w l tally) (goal : Goal) (columns : List ℕ) :
    Counts w (l ++ [columns]) (tally.add goal w columns) := by
  have hkept : tally.matched = 0 ∨ ∃ other ∈ l ++ [columns], countAllowed w other = tally.matched :=
    h.matched_of.imp_right fun ⟨other, hother, heq⟩ => ⟨other, List.mem_append_left _ hother, heq⟩
  cases htotal : (w.total? columns).join with
  | none =>
    rw [add_of_none htotal]
    refine ⟨fun hbest other hother => ?_, fun other hother hnone => ?_, ?_⟩
    · rcases List.mem_append.1 hother with hother | hother
      · exact h.none_of hbest other hother
      · rwa [List.mem_singleton.1 hother]
    · rcases List.mem_append.1 hother with hother | hother
      · exact (h.le_matched other hother hnone).trans (le_max_left _ _)
      · rw [List.mem_singleton.1 hother]
        exact le_max_right _ _
    · rcases max_choice tally.matched (countAllowed w columns) with heq | heq <;> simp only [heq]
      · exact hkept
      · exact .inr ⟨columns, by simp, rfl⟩
  | some total =>
    obtain ⟨hbest, hmatched⟩ : (tally.add goal w columns).best ≠ none ∧ _ := add_of_some htotal
    refine ⟨fun hnone => absurd hnone hbest, fun other hother hnone => ?_, hmatched ▸ hkept⟩
    rcases List.mem_append.1 hother with hother | hother
    · exact hmatched ▸ h.le_matched other hother hnone
    · rw [List.mem_singleton.1 hother, htotal] at hnone
      cases hnone

/-- What is counted of all permutations. -/
theorem counts_tally (goal : Goal) (w : Weights α) : Counts w (Permutations.all w.n) (tally goal w) := by
  rw [tally_eq_foldl]
  induction Permutations.all w.n using List.reverseRecOn with
  | nil => exact ⟨fun _ _ h => (nomatch h), fun _ h => (nomatch h), .inl rfl⟩
  | append_singleton l columns ih =>
    rw [List.foldl_append, List.foldl_cons, List.foldl_nil]
    exact ih.add goal columns

/-- If no permutation has a total, none has as many allowed edges as there are rows. -/
theorem countAllowed_lt (hnone : (w.total? columns).join = none) (hperm : columns.Perm (List.range w.n)) :
    countAllowed w columns < w.n := by
  refine lt_of_le_of_ne ?_ fun heq => ?_
  · refine List.countP_le_length.trans_eq ?_
    rw [List.length_zipIdx, hperm.length_eq, List.length_range]
  · obtain ⟨xs, _, htotal⟩ := (Weights.isPerfect_of_countAllowed hperm heq).exists_total?
    rw [htotal] at hnone
    cases hnone

/-- If nothing is kept of all permutations, some matching has as many edges as are counted, and none has more. These are fewer than
the rows. -/
theorem matched_spec (hn : 0 < w.n) (hbest : (tally goal w).best = none) :
    (tally goal w).matched < w.n ∧ (∃ edges, w.IsMatching edges ∧ edges.length = (tally goal w).matched) ∧
      ∀ edges, w.IsMatching edges → edges.length ≤ (tally goal w).matched := by
  have hcounts := counts_tally goal w
  have hnone := hcounts.none_of hbest
  refine and_assoc.1 ⟨?_, fun edges hedges => ?_⟩
  · rcases hcounts.matched_of with hzero | ⟨columns, hmem, heq⟩
    · rw [hzero]
      exact ⟨hn, [], ⟨fun _ h => (nomatch h), List.nodup_nil, List.nodup_nil⟩, rfl⟩
    · have hperm := Permutations.mem_all.1 hmem
      rw [← heq]
      exact ⟨countAllowed_lt (hnone columns hmem) hperm, w.edgesOn columns, Weights.isMatching_edgesOn hperm, w.length_edgesOn columns⟩
  · obtain ⟨columns, hmem, hlength⟩ := hedges.exists_le_countAllowed
    exact hlength.trans (hcounts.le_matched columns hmem (hnone columns hmem))

/-- If a call finds no perfect matching and reports a number of pairs, this is the number of edges of a largest matching: some matching
on allowed edges has so many, and none has more, on a permutation or not. It is less than the number of rows. -/
theorem solve_noPerfectMatching (m : Enumeration α n) (goal : Goal) (w : Weights α) {k size : ℕ}
    (h : (m.solve goal w).outcome = .error (.noPerfectMatching k size)) :
    size = n ∧ k < n ∧ (∃ edges, w.IsMatching edges ∧ edges.length = k) ∧ ∀ edges, w.IsMatching edges → edges.length ≤ k := by
  unfold solve at h
  split at h
  · cases h
  rename_i hsize
  split at h
  · cases h
  rename_i hn
  split at h
  · cases h
  split at h
  · cases h
  obtain rfl := not_not.1 hsize
  cases hbest : (tally goal w).best with
  | some best => simp [hbest] at h
  | none =>
    simp only [hbest, Except.error.injEq, Failure.noPerfectMatching.injEq] at h
    obtain ⟨rfl, rfl⟩ := h
    exact ⟨rfl, matched_spec (Nat.pos_of_ne_zero hn) hbest⟩

/-- Two rows that may use the first column only, and a third row with all edges: two pairs at most. -/
theorem solve_noPerfectMatching_three :
    let one := Float.ofBits 0x3FF0000000000000
    let w : Weights Float := ⟨3, #v[some one, none, none, some one, none, none, some one, some one, some one]⟩
    ((new 3 : Enumeration Float 3).solve .max w).outcome = .error (.noPerfectMatching 2 3) ∧
      (∃ edges, w.IsMatching edges ∧ edges.length = 2) ∧ ∀ edges, w.IsMatching edges → edges.length ≤ 2 := by
  intro one w
  have h : ((new 3 : Enumeration Float 3).solve .max w).outcome = .error (.noPerfectMatching 2 3) := by decide +kernel
  exact ⟨h, (solve_noPerfectMatching (new 3) .max w h).2.2⟩

end Enumeration

end PerfectMatching
