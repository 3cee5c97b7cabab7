import PerfectMatching.Proofs.Perfect

/-!
# Inverse lists

The check of a result reads the second list at every number of the first, and asks whether this leads back. It never looks whether the
first list repeats a number or misses one, nor what else the second one holds. That is not needed: what leads back differs, so the
first list holds as many different numbers as it has places, all of them places of the second, which is as long. Main statement: the
check succeeds exactly for a permutation and its inverse (`Assignment.areInverse_iff`).
-/

namespace PerfectMatching.Assignment

variable {n : ℕ} {source dest : List ℕ}

/-- Each number of the first list, used as a place in the second, leads back to its own place. -/
def LeadsBack (source dest : List ℕ) : Prop := ∀ i < source.length, (source[i]?.bind fun j => dest[j]?) = some i

/-- The numbers of a list that leads back are places in the second list. -/
theorem LeadsBack.getElem? (h : LeadsBack source dest) {i j : ℕ} (hij : source[i]? = some j) : dest[j]? = some i := by
  have hi := h i (List.getElem?_eq_some_iff.1 hij).1
  rwa [hij, Option.bind_some] at hi

/-- The check looks at the lengths, and whether the first list leads back. -/
theorem areInverse_iff_leadsBack : areInverse source dest = true ↔ source.length = dest.length ∧ LeadsBack source dest := by
  simp only [areInverse, Bool.and_eq_true, beq_iff_eq, List.all_eq_true, Prod.forall, List.mem_zipIdx_iff_getElem?]
  refine and_congr_right fun _ => ⟨fun h i hi => ?_, fun h j i hij => h.getElem? hij⟩
  rw [List.getElem?_eq_getElem hi, Option.bind_some]
  exact h _ i (List.getElem?_eq_getElem hi)

/-- What leads back holds no number twice. -/
theorem LeadsBack.nodup (h : LeadsBack source dest) : source.Nodup := by
  rw [List.nodup_iff_getElem?_ne_getElem?]
  intro i k hik hk heq
  rw [List.getElem?_eq_getElem hk] at heq
  have hi := h.getElem? heq
  rw [h.getElem? (List.getElem?_eq_getElem hk)] at hi
  exact hik.ne' (Option.some.inj hi)

/-- What leads back from a list of the same length holds every place. -/
theorem LeadsBack.perm_range (h : LeadsBack source dest) (hlength : source.length = dest.length) :
    source.Perm (List.range source.length) := by
  have hsubset : source ⊆ List.range source.length := by
    intro j hj
    obtain ⟨i, hi⟩ := List.mem_iff_getElem?.1 hj
    rw [List.mem_range, hlength]
    exact (List.getElem?_eq_some_iff.1 (h.getElem? hi)).1
  exact (h.nodup.subperm hsubset).perm_of_length_le (List.length_range).le

/-- The list of a permutation leads back from that of its inverse. -/
theorem leadsBack_columnsOf (e : Equiv.Perm (Fin n)) : LeadsBack (columnsOf e) (columnsOf e.symm) :=
  (areInverse_iff_leadsBack.1 (areInverse_columnsOf e)).2

/-- A list that leads back from one of the same length is that of a permutation, and the other that of its inverse. -/
theorem LeadsBack.exists_perm (h : LeadsBack source dest) (hlength : source.length = dest.length) :
    ∃ e : Equiv.Perm (Fin source.length), source = columnsOf e ∧ dest = columnsOf e.symm := by
  obtain ⟨e, he⟩ := exists_columnsOf_eq (h.perm_range hlength)
  refine ⟨e, he, List.ext_getElem? fun j => ?_⟩
  by_cases hj : j < source.length
  · have hplace : source[(e.symm ⟨j, hj⟩).val]? = some j := by
      rw [congrArg (·[(e.symm ⟨j, hj⟩).val]?) he, getElem?_columnsOf, Equiv.apply_symm_apply]
    rw [h.getElem? hplace]
    exact (getElem?_columnsOf e.symm ⟨j, hj⟩).symm
  · rw [List.getElem?_eq_none (by omega), List.getElem?_eq_none (by rw [length_columnsOf]; omega)]

/-- The check succeeds exactly if the lists are equally long, the first holds every number below its length once, and each of the two
leads back from the other. -/
theorem areInverse_iff (source dest : List ℕ) :
    areInverse source dest = true ↔ source.length = dest.length ∧ source.Perm (List.range source.length) ∧
      LeadsBack source dest ∧ LeadsBack dest source := by
  rw [areInverse_iff_leadsBack]
  refine ⟨fun ⟨hlength, hback⟩ => ?_, fun ⟨hlength, _, hback, _⟩ => ⟨hlength, hback⟩⟩
  have hforth : LeadsBack dest source := by
    obtain ⟨e, hsource, hdest⟩ := hback.exists_perm hlength
    have h := leadsBack_columnsOf e.symm
    rwa [Equiv.symm_symm, ← hsource, ← hdest] at h
  exact ⟨hlength, hback.perm_range hlength, hback, hforth⟩

end PerfectMatching.Assignment
