import PerfectMatching.Proofs.Binary64.Opposite
import PerfectMatching.Proofs.Grammar
import PerfectMatching.Proofs.Rows
import PerfectMatching.Proofs.Shift
import PerfectMatching.Weights.Built

/-!
# Which weights a built matrix has

Every constructor sees to it that the weights are finite (`Constructed.isFinite`), those that check their input by refusing others and
those that do not by forbidding the edges; so it does not matter what a source of chance draws. Of the changes only a shift
can lead out of the finite numbers, and there is no way back: a matrix that has been changed has finite weights exactly if no shift
has led the weight of an edge that is still allowed out of range (`isFinite_iff_of_changed`). So not every matrix that can be built
has finite weights (`not_isFinite_of_changed`). But undefined weights are never found among finite ones
(`Built.definedOrNotFinite`).
-/

namespace PerfectMatching.Weights

open Binary64

/-! ## Constructors -/

/-- The weights are finite if every entry is forbidden or finite. -/
theorem isFinite_of_entries {w : Weights Float} (h : ∀ entry ∈ w.entries.toList, ∀ x ∈ entry, x.isFinite = true) :
    w.IsFinite := by
  intro x hx
  obtain ⟨entry, hentry, rfl⟩ := List.mem_filterMap.1 hx
  exact h _ hentry x rfl

/-- Rows that are taken as a matrix hold finite weights only. -/
theorem isFinite_of_ofRows {rows : List (List (Option Float))} {w : Weights Float} (h : ofRows rows = .ok w) : w.IsFinite := by
  obtain ⟨hrows, hlists⟩ := lists_of_ofRows h
  intro x hx
  obtain ⟨i, j, hedge⟩ := exists_edge_of_mem_allowed hx
  obtain ⟨row, entry, hrow, hentry, rfl⟩ := hlists.edge i j
  exact (hrows row (List.mem_of_getElem? hrow)).2 _ (List.mem_of_getElem? hentry) x hedge

/-- If whatever is found for an entry satisfies a condition, all entries that are found do. -/
theorem ofFnM_run {σ β : Type} {P : β → Prop} {k : ℕ} {f : Fin k → StateM σ β} (h : ∀ i s, P ((f i).run s).1) (s : σ) :
    ∀ x ∈ (Id.run ((Vector.ofFnM f).run s)).1, P x := by
  induction k with
  | zero => simp [Vector.ofFnM_zero]
  | succ k ih =>
    intro x hx
    rw [Vector.ofFnM_succ] at hx
    change x ∈ ((Vector.ofFnM fun i : Fin k => f i.castSucc).run s).1.push ((f (Fin.last k)).run
      ((Vector.ofFnM fun i : Fin k => f i.castSucc).run s).2).1 at hx
    rcases Vector.mem_push.1 hx with hx | rfl
    · exact ih (fun i s => h i.castSucc s) x hx
    · exact h (Fin.last k) _

/-- What is kept of entries is finite, whatever effect finding them has on a state. -/
theorem isFinite_ofFnM {σ : Type} (n : ℕ) (f : ℕ → ℕ → StateM σ (Option Float)) (s : σ) :
    (Id.run ((ofFnM n f).run s)).1.IsFinite := by
  refine isFinite_of_entries fun entry hentry => ?_
  refine ofFnM_run (P := fun entry : Option Float => ∀ x ∈ entry, x.isFinite = true) (fun i s x hx => ?_) s entry
    (Vector.mem_toList_iff.1 hentry)
  exact (Option.filter_eq_some_iff.1 hx).2

/-- The weights that a text gives are finite. -/
theorem Spells.isFinite {tokens : List (List Char)} {w : Weights Float} (h : Spells tokens w) : w.IsFinite := by
  intro x hx
  obtain ⟨i, j, hedge⟩ := exists_edge_of_mem_allowed hx
  obtain ⟨token, _, hdenotes⟩ := h.entry i j
  rw [hedge] at hdenotes
  cases hdenotes with
  | weight _ hfinite => exact hfinite

/-- Whatever constructor makes a matrix, its weights are finite. -/
theorem Constructed.isFinite {w : Weights Float} (h : Constructed w) : w.IsFinite := by
  cases h with
  | ofFnM n f s => exact isFinite_ofFnM n f s
  | sample draws n forbid s => exact isFinite_ofFnM n _ s
  | ofRows h => exact isFinite_of_ofRows h
  | ofMarkedRows h => exact isFinite_of_ofRows h
  | ofText h => exact (ofText_eq_ok_iff.1 h).isFinite

/-! ## Changes -/

/-- What a change makes of a weight, unless it forbids the edge. -/
def Change.moved : Change → Float → Float
  | .forbid _ _, x => x
  | .negate, x => -x
  | .shift c, x => x + c

/-- Forbidding an edge leaves the size and the other entries. -/
theorem of_forbid? {w w' : Weights Float} {i j : ℕ} (h : w.forbid? i j = some w') :
    w'.n = w.n ∧ ∀ i' j' y, w'.get? i' j' = some (some y) → w.get? i' j' = some (some y) := by
  unfold forbid? at h
  split at h
  · rename_i hplace
    obtain rfl := Option.some.inj h
    refine ⟨rfl, fun i' j' y hy => ?_⟩
    change (w.entries.set (w.position i j) none hplace)[w.position i' j']? = some (some y) at hy
    rw [Vector.getElem?_set] at hy
    split at hy
    · exact nomatch hy
    · exact hy
  · exact nomatch h

/-- A change keeps the size. -/
theorem n_of_change? {w w' : Weights Float} {change : Change} (h : w.change? change = some w') : w'.n = w.n := by
  cases change with
  | forbid i j => exact (of_forbid? h).1
  | negate => exact Option.some.inj h ▸ rfl
  | shift c => exact Option.some.inj h ▸ rfl

/-- An edge that is allowed after a change was allowed before, and the change has moved its weight. -/
theorem get?_of_change? {w w' : Weights Float} {change : Change} (h : w.change? change = some w') {i j : ℕ} {y : Float}
    (hy : w'.get? i j = some (some y)) : ∃ x, w.get? i j = some (some x) ∧ change.moved x = y := by
  have hmap : ∀ f : Float → Float, (w.map f).get? i j = some (some y) → ∃ x, w.get? i j = some (some x) ∧ f x = y := by
    intro f hy
    rw [get?_map] at hy
    obtain ⟨entry, hentry, hy⟩ := Option.map_eq_some_iff.1 hy
    obtain ⟨x, rfl, rfl⟩ := Option.map_eq_some_iff.1 hy
    exact ⟨x, hentry, rfl⟩
  cases change with
  | forbid i' j' => exact ⟨y, (of_forbid? h).2 i j y hy, rfl⟩
  | negate =>
    obtain rfl := Option.some.inj h
    exact hmap _ hy
  | shift c =>
    obtain rfl := Option.some.inj h
    exact hmap _ hy

/-- A weight that a change has moved is finite exactly if it was finite before and, if the change is a shift, its sum is. -/
theorem isFinite_moved {change : Change} {x : Float} :
    (change.moved x).isFinite = true ↔ x.isFinite = true ∧ ∀ c, change = .shift c → (x + c).isFinite = true := by
  cases change with
  | forbid i j => exact ⟨fun h => ⟨h, nofun⟩, And.left⟩
  | negate =>
    rw [Change.moved, isFinite_opposite]
    exact ⟨fun h => ⟨h, nofun⟩, And.left⟩
  | shift c =>
    refine ⟨fun h => ⟨(isFinite_of_add h).1, fun d hd => ?_⟩, fun h => h.2 c rfl⟩
    obtain rfl := Change.shift.inj hd
    exact h

/-- What is changed once more is changed at the end. -/
theorem changed?_concat {v w : Weights Float} {changes : List Change} {change : Change} :
    v.changed? (changes ++ [change]) = some w ↔ ∃ u, v.changed? changes = some u ∧ u.change? change = some w := by
  simp only [changed?, List.foldlM_append, List.foldlM_cons, List.foldlM_nil, bind_pure]
  exact Option.bind_eq_some_iff

/-- Changes keep the size. -/
theorem n_of_changed? {v w : Weights Float} {changes : List Change} (h : v.changed? changes = some w) : w.n = v.n := by
  induction changes using List.reverseRecOn generalizing w with
  | nil => exact Option.some.inj h ▸ rfl
  | append_singleton changes change ih =>
    obtain ⟨u, hu, hw⟩ := changed?_concat.1 h
    exact (n_of_change? hw).trans (ih hu)

/-- Every shift among some changes leaves the weight of the edge from row `i` to column `j` finite. -/
def ShiftsFinite (v : Weights Float) (changes : List Change) (i j : ℕ) : Prop :=
  ∀ before c after u x, changes = before ++ .shift c :: after → v.changed? before = some u → u.get? i j = some (some x) →
    (x + c).isFinite = true

/-- Among one change more, the last change may be a shift too. -/
theorem shiftsFinite_concat {v u : Weights Float} {changes : List Change} {change : Change} {i j : ℕ} {x : Float}
    (hu : v.changed? changes = some u) (hx : u.get? i j = some (some x)) :
    v.ShiftsFinite (changes ++ [change]) i j ↔
      v.ShiftsFinite changes i j ∧ ∀ c, change = .shift c → (x + c).isFinite = true := by
  constructor
  · intro h
    refine ⟨fun before c after u' z heq => ?_, fun c hc => ?_⟩
    · exact h before c (after ++ [change]) u' z (by rw [heq, List.append_assoc, List.cons_append])
    · exact h changes c [] u x (by rw [hc]) hu hx
  · rintro ⟨hbefore, hlast⟩ before c after u' z heq hu' hz
    rcases List.eq_nil_or_concat after with rfl | ⟨after, last, rfl⟩
    · obtain ⟨rfl, hc⟩ := List.append_inj' heq rfl
      obtain rfl := Option.some.inj (hu.symm.trans hu')
      obtain rfl := Option.some.inj (Option.some.inj (hx.symm.trans hz))
      exact hlast c (List.singleton_injective hc)
    · have heq : changes ++ [change] = (before ++ .shift c :: after) ++ [last] := by simpa using heq
      exact hbefore before c after u' z (List.append_inj' heq rfl).1 hu' hz

/-- A weight of a matrix whose weights were finite at first is finite after some changes exactly if all shifts have left it finite. -/
theorem isFinite_iff_shiftsFinite {v w : Weights Float} (hv : v.IsFinite) {changes : List Change}
    (hw : v.changed? changes = some w) {i j : ℕ} {y : Float} (hy : w.get? i j = some (some y)) :
    y.isFinite = true ↔ v.ShiftsFinite changes i j := by
  induction changes using List.reverseRecOn generalizing w y with
  | nil =>
    obtain rfl := Option.some.inj hw
    have hfinite : y.isFinite = true := hv y (mem_allowed_of_get? hy)
    exact iff_of_true hfinite fun before c after u x heq => absurd heq (by simp)
  | append_singleton changes change ih =>
    obtain ⟨u, hu, hchange⟩ := changed?_concat.1 hw
    obtain ⟨x, hx, rfl⟩ := get?_of_change? hchange hy
    rw [isFinite_moved, shiftsFinite_concat hu hx, ih hu hx]

/-- A matrix that has been constructed and then changed has the size that it was constructed with, an entry for each of its rows and
columns, and finite weights exactly if no shift has led the weight of an edge that is still allowed out of the finite numbers. -/
theorem isFinite_iff_of_changed {v w : Weights Float} {changes : List Change} (hv : v.Constructed)
    (hw : v.changed? changes = some w) :
    w.n = v.n ∧ w.entries.toList.length = w.n * w.n ∧
      (w.IsFinite ↔ ∀ i j, w.Allows i j → v.ShiftsFinite changes i j) := by
  refine ⟨n_of_changed? hw, Vector.length_toList, fun hfinite i j ⟨hi, hj, hedge⟩ => ?_, fun hshifts y hy => ?_⟩
  · obtain ⟨y, hy⟩ := Option.isSome_iff_exists.1 hedge
    have hget : w.get? i j = some (some y) := (w.get?_eq_edge ⟨i, hi⟩ ⟨j, hj⟩).trans (congrArg some hy)
    exact (isFinite_iff_shiftsFinite hv.isFinite hw hget).1 (hfinite y (mem_allowed_of_get? hget))
  · obtain ⟨i, j, hedge⟩ := exists_edge_of_mem_allowed hy
    have hallows : w.Allows i j := ⟨i.isLt, j.isLt, Option.isSome_iff_exists.2 ⟨y, hedge⟩⟩
    have hget : w.get? i j = some (some y) := (w.get?_eq_edge i j).trans (congrArg some hedge)
    exact (isFinite_iff_shiftsFinite hv.isFinite hw hget).2 (hshifts i j hallows)

/-- A shift leads one of two weights out of the finite numbers, and then its edge is forbidden. -/
theorem isFinite_iff_of_changed_two :
    let v : Weights Float := ofFn 2 fun i j => if i = j then some (if i = 0 then 1e308 else 1) else none
    let changes : List Change := [.negate, .shift (-1e308), .forbid 0 0]
    let w : Weights Float := ⟨2, (v.negated.shifted (-1e308)).entries.set 0 none⟩
    v.Constructed ∧ v.changed? changes = some w ∧ w.IsFinite ∧ ∀ i j, w.Allows i j → v.ShiftsFinite changes i j := by
  intro v changes w
  have hv : v.Constructed := .ofFn 2 _
  have hw : v.changed? changes = some w := rfl
  have hfinite : ∀ x ∈ w.allowed, x.isFinite = true := by decide +kernel
  exact ⟨hv, hw, hfinite, (isFinite_iff_of_changed hv hw).2.2.1 hfinite⟩

/-- Not every matrix that can be built has finite weights: the greatest power of ten, increased by itself, is infinite. -/
theorem not_isFinite_of_changed :
    let v : Weights Float := ofFn 1 fun _ _ => some 1e308
    v.Constructed ∧ v.changed? [.shift 1e308] = some (v.shifted 1e308) ∧ ¬(v.shifted 1e308).IsFinite := by
  intro v
  have hinfinite : ∃ x ∈ (v.shifted 1e308).allowed, x.isFinite = false := by decide +kernel
  obtain ⟨x, hx, hinf⟩ := hinfinite
  exact ⟨.ofFn 1 _, rfl, fun hfinite => Bool.noConfusion (hinf.symm.trans (hfinite x hx))⟩

/-! ## Undefined weights -/

/-- The weights after a change are weights from before that the change has moved. -/
theorem exists_moved_of_mem_allowed {w w' : Weights Float} {change : Change} (h : w.change? change = some w') {y : Float}
    (hy : y ∈ w'.allowed) : ∃ x ∈ w.allowed, change.moved x = y := by
  obtain ⟨i, j, hedge⟩ := exists_edge_of_mem_allowed hy
  obtain ⟨x, hx, heq⟩ := get?_of_change? h ((w'.get?_eq_edge i j).trans (congrArg some hedge))
  exact ⟨x, mem_allowed_of_get? hx, heq⟩

/-- All weights are numbers, or none of them is finite. -/
def DefinedOrNotFinite (w : Weights Float) : Prop :=
  (∀ x ∈ w.allowed, x.isNaN = false) ∨ ∀ x ∈ w.allowed, x.isFinite = false

/-- A number stays a number unless what is not finite is added to it, and what is not finite stays so. -/
theorem definedOrNotFinite_of_change? {w w' : Weights Float} {change : Change} (h : w.change? change = some w')
    (hw : w.DefinedOrNotFinite) : w'.DefinedOrNotFinite := by
  -- A shift by what is not finite does so to all weights at once; else every weight is moved to a weight of the same kind.
  by_cases hinfinite : ∃ c, change = .shift c ∧ c.isFinite = false
  · obtain ⟨c, rfl, hc⟩ := hinfinite
    refine Or.inr fun y hy => ?_
    obtain ⟨x, _, rfl⟩ := exists_moved_of_mem_allowed h hy
    exact Bool.eq_false_iff.2 fun hfinite => Bool.noConfusion (hc.symm.trans (isFinite_of_add hfinite).2)
  · refine hw.imp (fun hdefined y hy => ?_) fun hnot y hy => ?_
    · obtain ⟨x, hx, rfl⟩ := exists_moved_of_mem_allowed h hy
      cases change with
      | forbid i j => exact hdefined x hx
      | negate => exact (isNaN_neg x).trans (hdefined x hx)
      | shift c => exact isNaN_add_of_isFinite (hdefined x hx) (Bool.of_not_eq_false fun hc => hinfinite ⟨c, rfl, hc⟩)
    · obtain ⟨x, hx, rfl⟩ := exists_moved_of_mem_allowed h hy
      exact Bool.eq_false_iff.2 fun hfinite => Bool.noConfusion ((hnot x hx).symm.trans (isFinite_moved.1 hfinite).1)

/-- A matrix that has been built holds no undefined weight beside a finite one. -/
theorem Built.definedOrNotFinite {w : Weights Float} (h : w.Built) : w.DefinedOrNotFinite := by
  obtain ⟨v, changes, hv, hw⟩ := h
  induction changes using List.reverseRecOn generalizing w with
  | nil =>
    obtain rfl := Option.some.inj hw
    exact Or.inl fun x hx => isNaN_of_isFinite (hv.isFinite x hx)
  | append_singleton changes change ih =>
    obtain ⟨u, hu, hchange⟩ := changed?_concat.1 hw
    exact definedOrNotFinite_of_change? hchange (ih hu)

end PerfectMatching.Weights
