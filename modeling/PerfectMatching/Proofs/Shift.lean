import PerfectMatching.Matching
import PerfectMatching.PrimalDual
import PerfectMatching.Proofs.Search.Numbers

/-!
# Shifted weights

If the range check passes, every shifted weight that is defined is finite, and lies between the shifted bounds, which are
positive (`between_shift`). This needs nothing of the weights: what is not finite fails the check or is undefined after the shift.
-/

namespace PerfectMatching

/-- An edge that is allowed has its weight among those of the allowed edges. -/
theorem Weights.mem_allowed_of_edge {α : Type} {w : Weights α} {i j : Fin w.n} {x : α} (h : w.edge i j = some x) :
    x ∈ w.allowed := by
  refine List.mem_filterMap.2 ⟨some x, ?_, rfl⟩
  rw [Vector.mem_toList_iff, ← h]
  exact Vector.getElem_mem _

/-- A weight is that of an edge. -/
theorem Weights.exists_edge_of_mem_allowed {α : Type} {w : Weights α} {x : α} (h : x ∈ w.allowed) :
    ∃ i j, w.edge i j = some x := by
  obtain ⟨entry, hentry, rfl⟩ := List.mem_filterMap.1 h
  exact exists_edge_of_mem hentry

namespace PrimalDual

open LawfulScalar

variable {α : Type} [Scalar α] {n : ℕ} {goal : Goal} {offset : α} {w : Weights α}

/-- The weight of an edge after the shift. -/
theorem get_shift (goal : Goal) (offset : α) (w : Weights α) (h : w.n = n) (i j : Fin n) :
    ((shift goal offset w h).get i).get j =
      (w.edge (i.cast h.symm) (j.cast h.symm)).map fun x => goal.signed x - offset := by
  rw [shift, get_ofFn, get_ofFn]

/-- There are no bounds only if no edge is allowed. -/
theorem allowed_eq_nil (h : bounds? goal w = none) : w.allowed = [] := by
  unfold bounds? at h
  split at h
  · rename_i hnil
    exact List.map_eq_nil_iff.1 hnil
  · exact nomatch h

variable [LawfulScalar α]

/-- A weight is finite as the goal sees it if it is finite. -/
theorem isFinite_signed (goal : Goal) (x : α) : Scalar.isFinite (goal.signed x) = Scalar.isFinite x := by
  cases goal with
  | max => rfl
  | min => exact isFinite_neg x

/-- A finite weight has the same magnitude as the goal sees it. -/
theorem abs_value_signed (goal : Goal) {x : α} (h : Scalar.isFinite x = true) : |value (goal.signed x)| = |value x| := by
  cases goal with
  | max => rfl
  | min => rw [Goal.signed, value_neg h, abs_neg]

/-- The bounds are weights as the goal sees them, and bound those that are defined. -/
theorem bounds_spec {least greatest : α} (h : bounds? goal w = some (least, greatest)) :
    least ∈ w.allowed.map goal.signed ∧ greatest ∈ w.allowed.map goal.signed ∧
      ∀ x ∈ w.allowed, Scalar.le (goal.signed x) (goal.signed x) = true →
        Scalar.le least (goal.signed x) = true ∧ Scalar.le (goal.signed x) greatest = true := by
  unfold bounds? at h
  generalize hxs : w.allowed.map goal.signed = xs at h
  cases xs with
  | nil => exact nomatch h
  | cons y ys =>
    obtain ⟨rfl, rfl⟩ := Prod.mk.inj (Option.some.inj h)
    refine ⟨foldl_mem min_eq_or ys y, foldl_mem max_eq_or ys y, fun x hx hdef => ?_⟩
    have hmem : goal.signed x ∈ y :: ys := hxs ▸ List.mem_map_of_mem hx
    exact ⟨foldl_min_le hdef hmem, le_foldl_max hdef hmem⟩

/-- If there are bounds, there is a row. -/
theorem pos_of_bounds {least greatest : α} (h : bounds? goal w = some (least, greatest)) : 0 < w.n := by
  obtain ⟨x, hx, _⟩ := List.mem_map.1 (bounds_spec h).1
  obtain ⟨i, _⟩ := Weights.exists_edge_of_mem_allowed hx
  exact Nat.zero_lt_of_lt i.isLt

/-- If an edge is allowed, there are bounds, and those of finite weights are finite. -/
theorem exists_bounds (hfinite : w.IsFinite) (hedge : w.allowed ≠ []) (goal : Goal) :
    ∃ least greatest, bounds? goal w = some (least, greatest) ∧ Scalar.isFinite least = true ∧
      Scalar.isFinite greatest = true ∧ value least ≤ value greatest := by
  have hfin : ∀ x ∈ w.allowed.map goal.signed, Scalar.isFinite x = true := by
    intro x hx
    obtain ⟨y, hy, rfl⟩ := List.mem_map.1 hx
    rw [isFinite_signed]
    exact hfinite y hy
  cases hbounds : bounds? goal w with
  | none => exact absurd (allowed_eq_nil hbounds) hedge
  | some bounds =>
    obtain ⟨hleast, hgreatest, hbound⟩ := bounds_spec hbounds
    obtain ⟨x, hx, heq⟩ := List.mem_map.1 hleast
    have hxfin := hfin _ hleast
    have hle := (hbound x hx (by rw [heq]; exact le_self_of_isFinite hxfin)).2
    rw [heq] at hle
    exact ⟨bounds.1, bounds.2, rfl, hxfin, hfin _ hgreatest, (le_iff hxfin (hfin _ hgreatest)).1 hle⟩

/-- If the range check passes, the bounds and the offset are finite. -/
theorem isFinite_of_isShiftable {least greatest : α} (h : bounds? goal w = some (least, greatest))
    (hshift : isShiftable least greatest offset = true) :
    Scalar.isFinite least = true ∧ Scalar.isFinite greatest = true ∧ Scalar.isFinite offset = true := by
  rw [isShiftable, Bool.and_eq_true] at hshift
  obtain ⟨hgreatest, hoffset⟩ := isFinite_of_sub hshift.2
  obtain ⟨hmem, _, hbound⟩ := bounds_spec h
  obtain ⟨x, hx, rfl⟩ := List.mem_map.1 hmem
  have hdef := (le_self_of_sub (le_self_of_positive hshift.1)).1
  have hle := (hbound x hx hdef).2
  have hlt := lt_iff.1 (lt_infinity hgreatest)
  refine ⟨isFinite_of_positive_sub hshift.1 hoffset (lt_iff.2 ⟨le_infinity hdef, ?_⟩), hgreatest, hoffset⟩
  by_contra hinf
  rw [Bool.not_eq_false] at hinf
  have := le_trans hinf hle
  rw [hlt.2] at this
  exact nomatch this

/-- A weight between the bounds is shifted to between the shifted bounds. -/
theorem isFinite_sub_offset {least greatest x : α} (hleast : Scalar.isFinite least = true)
    (hoffset : Scalar.isFinite offset = true) (hx : Scalar.isFinite x = true)
    (hshift : isShiftable least greatest offset = true) (h1 : value least ≤ value x) (h2 : value x ≤ value greatest) :
    Scalar.isFinite (x - offset) = true ∧ value (least - offset) ≤ value (x - offset) ∧
      value (x - offset) ≤ value (greatest - offset) := by
  rw [isShiftable, Bool.and_eq_true] at hshift
  have hgreatest := (isFinite_of_sub hshift.2).1
  have hpos := (positive_sub hleast hoffset).1 hshift.1
  have hfits := (isFinite_sub hgreatest hoffset).1 hshift.2
  have hfin : ∀ {y : α}, Scalar.isFinite y = true → value least ≤ value y → value y ≤ value greatest →
      Scalar.isFinite (y - offset) = true := by
    intro y hy h1 h2
    refine (isFinite_sub hy hoffset).2 (fits_of_abs_le ?_ hfits)
    rw [abs_of_nonneg (by linarith), abs_of_nonneg (by linarith)]
    linarith
  have hx' := hfin hx h1 h2
  have hleast' := hfin hleast le_rfl (h1.trans h2)
  refine ⟨hx', ?_, ?_⟩
  · rw [value_sub hx', value_sub hleast']
    exact rounded_mono (by linarith)
  · rw [value_sub hx', value_sub hshift.2]
    exact rounded_mono (by linarith)

/-- If the range check passes, a weight that is defined is finite. -/
theorem isFinite_of_defined {least greatest x : α} (h : bounds? goal w = some (least, greatest))
    (hshift : isShiftable least greatest offset = true) (hx : x ∈ w.allowed)
    (hdef : Scalar.le (goal.signed x) (goal.signed x) = true) : Scalar.isFinite (goal.signed x) = true := by
  obtain ⟨hleast, hgreatest, _⟩ := isFinite_of_isShiftable h hshift
  obtain ⟨hge, hle⟩ := (bounds_spec h).2.2 x hx hdef
  exact isFinite_of_between hleast hge hle hgreatest

/-- If the range check passes, a weight that is defined is shifted to between the shifted bounds. -/
theorem isFinite_sub_offset_of_defined {least greatest x : α} (h : bounds? goal w = some (least, greatest))
    (hshift : isShiftable least greatest offset = true) (hx : x ∈ w.allowed)
    (hdef : Scalar.le (goal.signed x) (goal.signed x) = true) :
    Scalar.isFinite (goal.signed x - offset) = true ∧ value (least - offset) ≤ value (goal.signed x - offset) ∧
      value (goal.signed x - offset) ≤ value (greatest - offset) := by
  obtain ⟨hleast, hgreatest, hoffset⟩ := isFinite_of_isShiftable h hshift
  obtain ⟨hge, hle⟩ := (bounds_spec h).2.2 x hx hdef
  have hfin := isFinite_of_defined h hshift hx hdef
  exact isFinite_sub_offset hleast hoffset hfin hshift ((le_iff hleast hfin).1 hge) ((le_iff hfin hgreatest).1 hle)

/-- If the range check passes, every shifted weight that is defined lies between the shifted bounds, which are positive. -/
theorem between_shift {least greatest : α} (h : bounds? goal w = some (least, greatest))
    (hshift : isShiftable least greatest offset = true) (hn : w.n = n) :
    Between (shift goal offset w hn) (value (least - offset)) (value (greatest - offset)) ∧
      Scalar.isFinite (least - offset) = true ∧ 0 < value (least - offset) ∧
      value (least - offset) ≤ value (greatest - offset) := by
  obtain ⟨hleast, hgreatest, hoffset⟩ := isFinite_of_isShiftable h hshift
  obtain ⟨hmem, _, hbound⟩ := bounds_spec h
  have hle : value least ≤ value greatest := by
    obtain ⟨x, hx, rfl⟩ := List.mem_map.1 hmem
    exact (le_iff hleast hgreatest).1 (hbound x hx (le_self_of_isFinite hleast)).2
  obtain ⟨hfin, _, hle'⟩ := isFinite_sub_offset hleast hoffset hleast hshift le_rfl hle
  refine ⟨fun i j x hx hdef => ?_, hfin, ?_, hle'⟩
  · rw [get_shift] at hx
    obtain ⟨y, hy, rfl⟩ := Option.map_eq_some_iff.1 hx
    exact isFinite_sub_offset_of_defined h hshift (Weights.mem_allowed_of_edge hy) (le_self_of_sub hdef).1
  · rw [isShiftable, Bool.and_eq_true] at hshift
    exact (positive_iff hfin).1 hshift.1

end PrimalDual

end PerfectMatching
