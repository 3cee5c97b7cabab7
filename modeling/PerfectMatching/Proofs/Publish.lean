import Mathlib.Data.List.FinRange
import Mathlib.Data.Fintype.Perm
import PerfectMatching.PrimalDual
import PerfectMatching.Matching
import PerfectMatching.PrimalDual.Tight
import PerfectMatching.Proofs.Entries

/-!
# Publishing a matching

If every row is matched and the mates agree, they are a permutation of the columns and its inverse
(`State.exists_perm`), and if all its edges are allowed, publishing it succeeds (`publish_eq`).
-/

namespace PerfectMatching

/-! ## Permutations as lists -/

variable {n : ℕ}

/-- The numbers that a permutation takes the rows to, in the order of the rows. -/
def columnsOf (e : Equiv.Perm (Fin n)) : List ℕ := (List.finRange n).map fun i => (e i).val

/-- An entry of the list of a permutation. -/
theorem getElem?_columnsOf (e : Equiv.Perm (Fin n)) (i : Fin n) : (columnsOf e)[i.val]? = some (e i).val := by
  simp [columnsOf]

/-- The list of a permutation has an entry for each row. -/
@[simp] theorem length_columnsOf (e : Equiv.Perm (Fin n)) : (columnsOf e).length = n := by
  simp [columnsOf]

/-- The list of a permutation is a permutation of the rows. -/
theorem columnsOf_perm (e : Equiv.Perm (Fin n)) : (columnsOf e).Perm (List.range n) := by
  have h : ((List.finRange n).map e).Perm (List.finRange n) := Equiv.Perm.map_finRange_perm e
  have := h.map Fin.val
  rwa [List.map_map, List.map_coe_finRange_eq_range] at this

/-- The list of a permutation and that of its inverse undo each other. -/
theorem areInverse_columnsOf (e : Equiv.Perm (Fin n)) : Assignment.areInverse (columnsOf e) (columnsOf e.symm) = true := by
  rw [Assignment.areInverse, Bool.and_eq_true, length_columnsOf, length_columnsOf, beq_self_eq_true, List.all_eq_true]
  refine ⟨rfl, fun ⟨j, i⟩ hp => ?_⟩
  rw [List.mem_zipIdx_iff_getElem?] at hp
  have hi : i < n := by
    obtain ⟨h, _⟩ := List.getElem?_eq_some_iff.1 hp
    rwa [length_columnsOf] at h
  rw [getElem?_columnsOf e ⟨i, hi⟩] at hp
  obtain rfl := Option.some.inj hp
  rw [beq_iff_eq, getElem?_columnsOf, Equiv.symm_apply_apply]

/-- A list of results all of which are there. -/
theorem mapM_map_some {β γ : Type} (f : β → γ) (l : List β) : (l.map fun x => some (f x)).mapM id = some (l.map f) := by
  induction l with
  | nil => rfl
  | cons x l ih => simp [List.mapM_cons, ih]

namespace PrimalDual

variable {α : Type} {s : State α n} {work : Table α n}

/-- If every row is matched and the mates agree, they are a permutation and its inverse. -/
theorem State.exists_perm (hagree : s.MatesAgree) (hall : ∀ i, s.rowMate.get i ≠ none) :
    ∃ e : Equiv.Perm (Fin n), (∀ i, s.rowMate.get i = some (e i)) ∧ ∀ j, s.colMate.get j = some (e.symm j) := by
  choose mate hmate using fun i => Option.ne_none_iff_exists'.1 (hall i)
  have hinj : Function.Injective mate := by
    intro i k heq
    have h1 := (hagree i (mate i)).1 (hmate i)
    have h2 := (hagree k (mate k)).1 (hmate k)
    rw [heq, h2] at h1
    exact (Option.some.inj h1).symm
  refine ⟨Equiv.ofBijective mate (Finite.injective_iff_bijective.1 hinj), hmate, fun j => ?_⟩
  rw [← hagree, hmate]
  exact congrArg some (Equiv.ofBijective_apply_symm_apply mate _ j)

variable [Scalar α]

/-- The total of a matching whose edges are all allowed. -/
theorem unshiftedTotal_eq (offset : α) (goal : Goal) {mate : Fin n → Fin n} {weight : Fin n → α}
    (h : ∀ i, (work.get i).get (mate i) = some (weight i)) :
    unshiftedTotal? work offset goal ((List.finRange n).map mate) =
      some (Scalar.sum ((List.finRange n).map fun i => goal.signed (weight i + offset))) := by
  have hzip : (List.finRange n).zip ((List.finRange n).map mate) = (List.finRange n).map fun i => (i, mate i) := by
    have := List.zip_map' (f := id) (g := mate) (l := List.finRange n)
    rwa [List.map_id] at this
  have hmap : ((List.finRange n).map fun i => (i, mate i)).mapM (fun e => unshifted? work offset goal e.1 e.2) =
      some ((List.finRange n).map fun i => goal.signed (weight i + offset)) := by
    rw [List.mapM_map, ← mapM_map_some, List.mapM_map]
    congr 1
    funext i
    simp [unshifted?, h]
  rw [unshiftedTotal?, hzip, hmap, Option.map_some]

/-- Publishing a matching of allowed edges that matches every row succeeds. -/
theorem publish_eq (offset : α) (goal : Goal) {e : Equiv.Perm (Fin n)} {weight : Fin n → α}
    (hrow : ∀ i, s.rowMate.get i = some (e i)) (hcol : ∀ j, s.colMate.get j = some (e.symm j))
    (hedge : ∀ i, (work.get i).get (e i) = some (weight i)) :
    publish work offset goal s =
      .ok ⟨columnsOf e, columnsOf e.symm, Scalar.sum ((List.finRange n).map fun i => goal.signed (weight i + offset))⟩ := by
  have hrows : s.rowMate.toList.mapM id = some ((List.finRange n).map e) := by
    rw [toList_eq_map_get, show s.rowMate.get = fun i => some (e i) from funext hrow]
    exact mapM_map_some e _
  have hcols : s.colMate.toList.mapM id = some ((List.finRange n).map e.symm) := by
    rw [toList_eq_map_get, show s.colMate.get = fun j => some (e.symm j) from funext hcol]
    exact mapM_map_some e.symm _
  have hinverse := areInverse_columnsOf e
  simp only [columnsOf] at hinverse ⊢
  simp only [publish, hrows, hcols, List.map_map, Function.comp_def, hinverse, if_true, unshiftedTotal_eq offset goal hedge]

end PrimalDual

end PerfectMatching
