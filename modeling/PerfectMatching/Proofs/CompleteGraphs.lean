import PerfectMatching.Proofs.Binary64.Lawful
import PerfectMatching.Proofs.Completeness

/-!
# Complete graphs

If no edge is forbidden and all weights are finite, a call on binary64 weights either succeeds or refuses its weights, whatever is
rounded during the search. It refuses them exactly if the least weight swallows the margin of one, or the greatest one leaves the
range when it is shifted (`PrimalDual.solve_complete`). The bounds that a call computes are the extreme weights up to the sign of
zero, which the range check does not see (`PrimalDual.IsExtreme.isShiftable_eq`).
-/

namespace PerfectMatching

/-- If every edge is allowed, none is forbidden. -/
theorem Weights.anyForbidden_eq_false {α : Type} {w : Weights α} (h : ∀ i j, (w.edge i j).isSome) : w.anyForbidden = false := by
  rw [anyForbidden, List.any_eq_false]
  intro entry hentry
  obtain ⟨i, j, rfl⟩ := exists_edge_of_mem hentry
  rw [Option.isNone_iff_eq_none]
  exact Option.isSome_iff_ne_none.1 (h i j)

namespace PrimalDual

open LawfulScalar

variable {α : Type} [Scalar α] {n : ℕ} {goal : Goal} {w : Weights α} {least greatest : α}

/-- The least and the greatest weight of the allowed edges as the goal sees them. -/
structure IsExtreme (goal : Goal) (w : Weights α) (least greatest : α) : Prop where
  least_mem : least ∈ w.allowed.map goal.signed
  greatest_mem : greatest ∈ w.allowed.map goal.signed
  least_le : ∀ x ∈ w.allowed, Scalar.le least (goal.signed x) = true
  le_greatest : ∀ x ∈ w.allowed, Scalar.le (goal.signed x) greatest = true

variable [LawfulScalar α]

/-- The bounds of finite weights are the extreme ones. -/
theorem isExtreme_of_bounds (hfinite : w.IsFinite) (hbounds : bounds? goal w = some (least, greatest)) :
    IsExtreme goal w least greatest := by
  obtain ⟨hleast, hgreatest, hbound⟩ := bounds_spec hbounds
  have hdef : ∀ x ∈ w.allowed, Scalar.le (goal.signed x) (goal.signed x) = true := fun x hx =>
    le_self_of_isFinite ((isFinite_signed goal x).trans (hfinite x hx))
  exact ⟨hleast, hgreatest, fun x hx => (hbound x hx (hdef x hx)).1, fun x hx => (hbound x hx (hdef x hx)).2⟩

/-- Extreme weights are finite if all weights are. -/
theorem IsExtreme.isFinite (h : IsExtreme goal w least greatest) (hfinite : w.IsFinite) :
    Scalar.isFinite least = true ∧ Scalar.isFinite greatest = true := by
  have hfin : ∀ x ∈ w.allowed.map goal.signed, Scalar.isFinite x = true := by
    intro x hx
    obtain ⟨y, hy, rfl⟩ := List.mem_map.1 hx
    rw [isFinite_signed]
    exact hfinite y hy
  exact ⟨hfin _ h.least_mem, hfin _ h.greatest_mem⟩

/-- Two pairs of extreme weights have the same values. -/
theorem IsExtreme.value_eq {least' greatest' : α} (h : IsExtreme goal w least greatest)
    (h' : IsExtreme goal w least' greatest') (hfinite : w.IsFinite) :
    value least = value least' ∧ value greatest = value greatest' := by
  obtain ⟨hl, hg⟩ := h.isFinite hfinite
  obtain ⟨hl', hg'⟩ := h'.isFinite hfinite
  obtain ⟨x, hx, hxl⟩ := List.mem_map.1 h.least_mem
  obtain ⟨x', hx', hxl'⟩ := List.mem_map.1 h'.least_mem
  obtain ⟨y, hy, hyg⟩ := List.mem_map.1 h.greatest_mem
  obtain ⟨y', hy', hyg'⟩ := List.mem_map.1 h'.greatest_mem
  constructor
  · exact le_antisymm ((le_iff hl hl').1 (hxl' ▸ h.least_le x' hx')) ((le_iff hl' hl).1 (hxl ▸ h'.least_le x hx))
  · exact le_antisymm ((le_iff hg hg').1 (hyg ▸ h'.le_greatest y hy)) ((le_iff hg' hg).1 (hyg' ▸ h.le_greatest y' hy'))

/-- The range check of a shift by a difference sees only values. -/
theorem isShiftable_sub_iff {margin : α} (hleast : Scalar.isFinite least = true) (hgreatest : Scalar.isFinite greatest = true)
    (hmargin : Scalar.isFinite margin = true) :
    isShiftable least greatest (least - margin) = true ↔
      Fits α (value least - value margin) ∧ rounded α (value least - value margin) < value least ∧
        Fits α (value greatest - rounded α (value least - value margin)) := by
  rw [isShiftable, Bool.and_eq_true, ← isFinite_sub hleast hmargin]
  cases hoffset : Scalar.isFinite (least - margin) with
  | false =>
    refine iff_of_false (fun h => ?_) fun h => Bool.false_ne_true h.1
    exact Bool.false_ne_true (hoffset.symm.trans (isFinite_of_sub h.2).2)
  | true =>
    rw [positive_sub hleast hoffset, isFinite_sub hgreatest hoffset, value_sub hoffset]
    exact (and_iff_right rfl).symm

/-- The range check is the same for all extreme weights. -/
theorem IsExtreme.isShiftable_eq {least' greatest' margin : α} (h : IsExtreme goal w least greatest)
    (h' : IsExtreme goal w least' greatest') (hfinite : w.IsFinite) (hmargin : Scalar.isFinite margin = true) :
    isShiftable least greatest (least - margin) = isShiftable least' greatest' (least' - margin) := by
  obtain ⟨hl, hg⟩ := h.isFinite hfinite
  obtain ⟨hl', hg'⟩ := h'.isFinite hfinite
  obtain ⟨hleast, hgreatest⟩ := h.value_eq h' hfinite
  rw [Bool.eq_iff_iff, isShiftable_sub_iff hl hg hmargin, isShiftable_sub_iff hl' hg' hmargin, hleast, hgreatest]

/-- A call on finite binary64 weights of which none is forbidden succeeds or refuses its weights. It refuses them exactly if the
least weight, less one, is not below the least weight, or the distance of the greatest weight from it is not finite. -/
theorem solve_complete (m : PrimalDual Float n) (goal : Goal) (w : Weights Float) (h : w.n = n) (hn : 0 < n)
    (hall : ∀ i j, (w.edge i j).isSome) (hfinite : w.IsFinite) :
    let r := m.solve goal w
    (r.outcome = .ok () ∨ ∃ x y, r.outcome = .error (.unshiftable x y)) ∧
      (∃ least greatest, IsExtreme goal w least greatest) ∧
      ∀ least greatest, IsExtreme goal w least greatest →
        ((∃ x y, r.outcome = .error (.unshiftable x y)) ↔
          ¬(Scalar.positive (least - (least - Scalar.one)) = true ∧
            Scalar.isFinite (greatest - (least - Scalar.one)) = true)) := by
  intro r
  subst h
  have hforbidden := Weights.anyForbidden_eq_false hall
  have hperfect : w.HasPerfect :=
    ⟨_, Weights.isPerfect_columnsOf (e := Equiv.refl _) fun i => Option.isSome_iff_exists.1 (hall i i)⟩
  have hedge : w.allowed ≠ [] := by
    obtain ⟨x, hx⟩ := Option.isSome_iff_exists.1 (hall ⟨0, hn⟩ ⟨0, hn⟩)
    exact List.ne_nil_of_mem (Weights.mem_allowed_of_edge hx)
  obtain ⟨p, q, hbounds, _⟩ := exists_bounds hfinite hedge goal
  have hextreme := isExtreme_of_bounds hfinite hbounds
  have hoffset : offsetOf w p q = p - Scalar.one := by
    rw [offsetOf, margin, if_neg (by rw [hforbidden]; exact Bool.false_ne_true)]
  have hcheck : (r.outcome = .ok () ∧ isShiftable p q (p - Scalar.one) = true) ∨
      (∃ x y, r.outcome = .error (.unshiftable x y)) ∧ isShiftable p q (p - Scalar.one) = false := by
    cases hshift : isShiftable p q (p - Scalar.one) with
    | true =>
      rw [← hoffset] at hshift
      exact Or.inl ⟨(solve_iff m rfl hn hfinite hbounds hshift (Or.inl hforbidden)).1.2 hperfect, rfl⟩
    | false =>
      refine Or.inr ⟨?_, rfl⟩
      simp only [r, solve, dif_pos, if_neg hn.ne', hbounds, hoffset, hshift]
      exact ⟨_, _, rfl⟩
  refine ⟨hcheck.imp And.left And.left, ⟨p, q, hextreme⟩, fun least greatest h => ?_⟩
  rw [← Bool.and_eq_true, ← isShiftable, h.isShiftable_eq hextreme hfinite isFinite_one, Bool.not_eq_true]
  rcases hcheck with ⟨hok, hshift⟩ | ⟨herror, hshift⟩
  · rw [hok, hshift]
    refine iff_of_false ?_ fun h => Bool.noConfusion h
    rintro ⟨x, y, h⟩
    cases h
  · exact iff_of_true herror hshift

/-- The weights `-2 ^ 53`, `0`, `1` and `2` swallow the margin for the greatest total, and are refused; for the least total they are
solved. -/
theorem solve_complete_two :
    let w : Weights Float := ⟨2, #v[some (Float.ofBits 0xc340000000000000), some (Float.ofBits 0), some (Float.ofBits 0x3ff0000000000000),
      some (Float.ofBits 0x4000000000000000)]⟩
    w.IsFinite ∧ ((new 2 : PrimalDual Float 2).solve .min w).outcome = .ok () ∧
      ∃ x y, ((new 2 : PrimalDual Float 2).solve .max w).outcome = .error (.unshiftable x y) := by
  intro w
  have hall : ∀ i j, (w.edge i j).isSome := by decide
  have hfinite : w.IsFinite := by
    unfold Weights.IsFinite
    decide +kernel
  have hextreme : IsExtreme .max w (Float.ofBits 0xc340000000000000) (Float.ofBits 0x4000000000000000) :=
    ⟨.head _, .tail _ (.tail _ (.tail _ (.head _))), by decide +kernel, by decide +kernel⟩
  have hextreme' : IsExtreme .min w (-Float.ofBits 0x4000000000000000) (-Float.ofBits 0xc340000000000000) :=
    ⟨.tail _ (.tail _ (.tail _ (.head _))), .head _, by decide +kernel, by decide +kernel⟩
  obtain ⟨hor, _, hrefused⟩ := solve_complete (new 2) .min w rfl two_pos hall hfinite
  refine ⟨hfinite, hor.resolve_right fun h => (hrefused _ _ hextreme').1 h (by decide +kernel), ?_⟩
  exact ((solve_complete (new 2) .max w rfl two_pos hall hfinite).2.2 _ _ hextreme).2 (by decide +kernel)

end PrimalDual

end PerfectMatching
