import PerfectMatching.History
import PerfectMatching.Matching
import PerfectMatching.Proofs.Binary64.Lawful
import PerfectMatching.Proofs.Calls

/-!
# What a call may return

On binary64 numbers, after any calls before and for any weights, a call succeeds or refuses its input or finds that there is no
perfect matching, and never contradicts its own bookkeeping. A success is a permutation on allowed edges, and a search that is
given up holds a matching of the size it reports (`PrimalDual.solve_sound`).
-/

namespace PerfectMatching

variable {α : Type} {n : ℕ}

namespace PrimalDual

/-- There are as many matched pairs as matched rows. -/
theorem State.length_edges (s : State α n) : s.edges.length = s.matched := by
  rw [edges, matched, ← Vector.countP_toList, toList_eq_map_get, List.countP_map, List.length_filterMap_eq_countP]
  congr 1
  funext i
  simp

/-- The matched pairs are a matching if the mates agree and the edges between them are allowed. -/
theorem State.isMatching_edges {w : Weights α} {s : State α n} (hagree : s.MatesAgree)
    (hedge : ∀ i j, s.rowMate.get i = some j → w.Allows i j) : w.IsMatching s.edges where
  allowed e he := by
    obtain ⟨i, _, hi⟩ := List.mem_filterMap.1 he
    obtain ⟨j, hj, rfl⟩ := Option.map_eq_some_iff.1 hi
    exact hedge i j hj
  rows_nodup := by
    rw [edges, List.map_filterMap]
    refine (List.nodup_finRange n).filterMap fun i k a hi hk => ?_
    simp only [Option.map_map, Option.mem_def, Option.map_eq_some_iff, Function.comp_apply] at hi hk
    obtain ⟨_, _, rfl⟩ := hi
    obtain ⟨_, _, hk⟩ := hk
    exact (Fin.ext hk).symm
  cols_nodup := by
    rw [edges, List.map_filterMap]
    refine (List.nodup_finRange n).filterMap fun i k b hi hk => ?_
    simp only [Option.map_map, Option.mem_def, Option.map_eq_some_iff, Function.comp_apply] at hi hk
    obtain ⟨j, hj, rfl⟩ := hi
    obtain ⟨l, hl, hjl⟩ := hk
    obtain rfl := Fin.ext hjl
    have h1 := (hagree i l).1 hj
    rw [(hagree k l).1 hl] at h1
    exact (Option.some.inj h1).symm

variable [Scalar α]

/-- An edge with a shifted weight is allowed. -/
theorem allows_of_get_shift {goal : Goal} {offset : α} {w : Weights α} (h : w.n = n) {i j : Fin n} {x : α}
    (hx : ((shift goal offset w h).get i).get j = some x) : w.Allows i j := by
  rw [get_shift] at hx
  obtain ⟨y, hy, _⟩ := Option.map_eq_some_iff.1 hx
  refine ⟨h ▸ i.isLt, h ▸ j.isLt, ?_⟩
  rw [Option.isSome_iff_exists]
  exact ⟨y, hy⟩

/-- Lists that are a permutation and its inverse lead back and forth. -/
theorem getElem?_columnsOf_iff (e : Equiv.Perm (Fin n)) (i j : ℕ) :
    (columnsOf e)[i]? = some j ↔ (columnsOf e.symm)[j]? = some i := by
  have hback : ∀ (e : Equiv.Perm (Fin n)) {i j : ℕ}, (columnsOf e)[i]? = some j → (columnsOf e.symm)[j]? = some i := by
    intro e i j h
    have hi : i < n := by
      obtain ⟨h, _⟩ := List.getElem?_eq_some_iff.1 h
      rwa [length_columnsOf] at h
    rw [getElem?_columnsOf e ⟨i, hi⟩] at h
    obtain rfl := Option.some.inj h
    rw [getElem?_columnsOf, Equiv.symm_apply_apply]
  refine ⟨hback e, fun h => ?_⟩
  have := hback e.symm h
  rwa [Equiv.symm_symm] at this

/-- What a call may return: it succeeds, refuses its input or finds that there is no perfect matching. -/
inductive Legal (w : Weights α) (n : ℕ) : Except (Failure α) Unit → Prop where
  | ok : Legal w n (.ok ())
  | sizeMismatch : Legal w n (.error (.sizeMismatch n w.n))
  | noEdge : Legal w n (.error .noEdge)
  | unshiftable (least greatest : α) : Legal w n (.error (.unshiftable least greatest))
  | noPerfectMatching (matched : ℕ) : Legal w n (.error (.noPerfectMatching matched n))

/-- The result is a permutation and its inverse, and all its edges are allowed. -/
structure IsPermutation (w : Weights α) (n : ℕ) (result : Assignment α) : Prop where
  source_perm : result.source.Perm (List.range n)
  dest_perm : result.dest.Perm (List.range n)
  inverse : ∀ i j : ℕ, result.source[i]? = some j ↔ result.dest[j]? = some i
  allowed : ∀ i j : ℕ, result.source[i]? = some j → w.Allows i j

/-- The list of a permutation along edges of the shifted table. -/
theorem isPermutation_columnsOf {goal : Goal} {offset total : α} {w : Weights α} (h : w.n = n) (e : Equiv.Perm (Fin n))
    (hedge : ∀ i, ∃ x, ((shift goal offset w h).get i).get (e i) = some x) :
    IsPermutation w n ⟨columnsOf e, columnsOf e.symm, total⟩ where
  source_perm := columnsOf_perm e
  dest_perm := columnsOf_perm e.symm
  inverse := getElem?_columnsOf_iff e
  allowed i j hij := by
    have hi : i < n := by
      obtain ⟨h, _⟩ := List.getElem?_eq_some_iff.1 hij
      rwa [length_columnsOf] at h
    rw [getElem?_columnsOf e ⟨i, hi⟩] at hij
    obtain rfl := Option.some.inj hij
    obtain ⟨x, hx⟩ := hedge ⟨i, hi⟩
    exact allows_of_get_shift h hx

variable [LawfulScalar α]

/-- A search on the shifted table never contradicts its bookkeeping, and its result or its matching uses allowed edges. -/
theorem Ended.sound {goal : Goal} {offset : α} {w : Weights α} (h : w.n = n) (hn : 0 < n) {least greatest : ℚ}
    (hwork : Between (shift goal offset w h) least greatest) (hgreatest : 0 ≤ greatest) {r : Solved α (PrimalDual α n)}
    (hr : Ended (shift goal offset w h) offset goal r) :
    (r.outcome = .ok () ∧ IsPermutation w n r.matcher.result) ∨
      ∃ k, r.outcome = .error (.noPerfectMatching k n) ∧ k = r.matcher.effort.augmentations ∧ k < n ∧
        w.IsMatching r.matcher.state.edges ∧ r.matcher.state.edges.length = k := by
  cases hr with
  | @perfect _ _ _ _ _ e weight _ _ _ _ hweight hok _ _ hresult =>
    refine Or.inl ⟨hok, ?_⟩
    rw [hresult]
    exact isPermutation_columnsOf h e fun i => ⟨_, hweight i⟩
  | @abandoned s t effort hstage hst _ _ herror heffort hstate =>
    have hs := hstage.valid hwork hgreatest hn
    have ht := hs.of_steps hst
    refine Or.inr ⟨t.matched, herror, ?_, matched_lt ht.unmatched, ?_, ?_⟩
    · rw [heffort, matched_of_steps hst]
      exact (hstage.spent hwork hgreatest hn).matched_eq
    · rw [hstate]
      refine State.isMatching_edges ht.grown.agree fun i j hij => ?_
      obtain ⟨x, hx, _⟩ := ht.grown.mate_edge i j hij
      exact allows_of_get_shift h hx
    · rw [hstate, State.length_edges]

/-- Whatever calls came before, a call on binary64 weights succeeds, refuses its input or finds that there is no perfect
matching. A success with at least one row is a permutation and its inverse on allowed edges; a search that is given up has
matched as many rows as it made augmentations, fewer than there are, along allowed edges. -/
theorem solve_sound (calls : List (Call Float)) (goal : Goal) (w : Weights Float) :
    let r := (PrimalDual.after calls : PrimalDual Float n).solve goal w
    Legal w n r.outcome ∧
      (r.outcome = .ok () → 0 < n → IsPermutation w n r.matcher.result) ∧
      ∀ k m, r.outcome = .error (.noPerfectMatching k m) →
        m = n ∧ k = r.matcher.effort.augmentations ∧ k < n ∧
          w.IsMatching r.matcher.state.edges ∧ r.matcher.state.edges.length = k := by
  intro r
  have hcall : Called (PrimalDual.after calls) goal w r := called_solve _ goal w
  clear_value r
  cases hcall with
  | mismatched _ => exact ⟨.sizeMismatch, nofun, nofun⟩
  | trivial _ hn => exact ⟨.ok, fun _ h => absurd hn h.ne', nofun⟩
  | noEdge _ _ _ => exact ⟨.noEdge, nofun, nofun⟩
  | unshiftable _ _ _ _ => exact ⟨.unshiftable _ _, nofun, nofun⟩
  | searched h hn hbounds hshift hended =>
    obtain ⟨hbetween, _, hpos, hle⟩ := between_shift hbounds hshift h
    rcases hended.sound h hn hbetween (hpos.le.trans hle) with ⟨hok, hperm⟩ | ⟨k, herror, hk⟩
    · rw [hok]
      exact ⟨.ok, fun _ _ => hperm, nofun⟩
    · rw [herror]
      refine ⟨.noPerfectMatching k, nofun, fun k' m heq => ?_⟩
      cases heq
      exact ⟨rfl, hk⟩

end PrimalDual

end PerfectMatching
