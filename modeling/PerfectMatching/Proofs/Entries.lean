import Mathlib.Data.Fintype.Card

/-!
# Entries of vectors and lists

What the functions on vectors do to single entries, how many entries satisfy a condition, and which member of a list is the first that
does not.
-/

namespace PerfectMatching

variable {β γ : Type} {n : ℕ}

/-- An entry by its number. -/
theorem get_eq_getElem (v : Vector β n) (i : Fin n) : v.get i = v[i.val] := rfl

/-- An entry after one entry has been set. -/
theorem get_set (v : Vector β n) (i j : Fin n) (x : β) : (v.set i x i.isLt).get j = if i = j then x else v.get j := by
  rw [get_eq_getElem, get_eq_getElem, Vector.getElem_set]
  simp only [Fin.val_inj]

/-- The entry that has been set. -/
@[simp] theorem get_set_self (v : Vector β n) (i : Fin n) (x : β) : (v.set i x i.isLt).get i = x := by
  rw [get_set, if_pos rfl]

/-- An entry other than the one that has been set. -/
theorem get_set_of_ne (v : Vector β n) {i j : Fin n} (x : β) (h : j ≠ i) : (v.set i x i.isLt).get j = v.get j := by
  rw [get_set, if_neg h.symm]

/-- An entry of a vector given by a function. -/
@[simp] theorem get_ofFn (f : Fin n → β) (i : Fin n) : (Vector.ofFn f).get i = f i := by
  rw [get_eq_getElem, Vector.getElem_ofFn]

/-- An entry of a vector to which a function has been applied. -/
@[simp] theorem get_map (f : β → γ) (v : Vector β n) (i : Fin n) : (v.map f).get i = f (v.get i) := by
  rw [get_eq_getElem, Vector.getElem_map, get_eq_getElem]

/-- An entry of a vector of equal entries. -/
@[simp] theorem get_replicate (x : β) (i : Fin n) : (Vector.replicate n x).get i = x := by
  rw [get_eq_getElem, Vector.getElem_replicate]

/-- Setting entries one after the other leaves every other entry as it is. -/
theorem get_foldl_set_of_notMem {key : γ → Fin n} {val : γ → β} {xs : List γ} {i : Fin n} (hi : i ∉ xs.map key) (v : Vector β n) :
    (xs.foldl (fun v x => v.set (key x) (val x) (key x).isLt) v).get i = v.get i := by
  induction xs generalizing v with
  | nil => rfl
  | cons x xs ih =>
    rw [List.map_cons, List.mem_cons, not_or] at hi
    rw [List.foldl_cons, ih hi.2, get_set_of_ne _ _ hi.1]

/-- Setting entries one after the other, none of them twice, sets every one of them. -/
theorem get_foldl_set_of_mem {key : γ → Fin n} {val : γ → β} {xs : List γ} (h : (xs.map key).Nodup) {x : γ} (hx : x ∈ xs)
    (v : Vector β n) : (xs.foldl (fun v x => v.set (key x) (val x) (key x).isLt) v).get (key x) = val x := by
  induction xs generalizing v with
  | nil => exact absurd hx List.not_mem_nil
  | cons y xs ih =>
    rw [List.map_cons, List.nodup_cons] at h
    rw [List.foldl_cons]
    rcases List.mem_cons.1 hx with rfl | hx
    · rw [get_foldl_set_of_notMem h.1, get_set_self]
    · exact ih h.2 hx _

/-- The list of the entries. -/
theorem toList_eq_map_get (v : Vector β n) : v.toList = (List.finRange n).map v.get := by
  apply List.ext_getElem
  · simp
  · intro i h1 h2
    simp [get_eq_getElem]

/-- The number of entries that satisfy a condition, as the size of a set of places. -/
theorem countP_eq_card (v : Vector β n) (p : β → Bool) : v.countP p = (Finset.univ.filter fun i => p (v.get i) = true).card := by
  rw [← Vector.countP_toList, toList_eq_map_get, List.countP_map, List.countP_eq_length_filter]
  change _ = (Multiset.filter _ (List.finRange n : Multiset (Fin n))).card
  simp [Function.comp_def]

/-- Either all members of a list satisfy a condition, or there is a first one that does not. -/
theorem forall_or_exists_first (P : β → Prop) (xs : List β) :
    (∀ x ∈ xs, P x) ∨ ∃ before x after, xs = before ++ x :: after ∧ (∀ y ∈ before, P y) ∧ ¬P x := by
  induction xs with
  | nil => exact Or.inl nofun
  | cons x xs ih =>
    by_cases hx : P x
    · rcases ih with hall | ⟨before, y, after, rfl, hbefore, hy⟩
      · exact Or.inl (List.forall_mem_cons.2 ⟨hx, hall⟩)
      · exact Or.inr ⟨x :: before, y, after, rfl, List.forall_mem_cons.2 ⟨hx, hbefore⟩, hy⟩
    · exact Or.inr ⟨[], x, xs, rfl, nofun, hx⟩

end PerfectMatching
