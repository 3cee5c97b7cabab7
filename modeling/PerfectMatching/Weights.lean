import PerfectMatching.Decimal.Numeral
import PerfectMatching.Failure
import PerfectMatching.Scalar

/-!
# Weight matrices

The edges of a complete bipartite graph with `n` nodes on either side, one entry an edge, row by row. An entry is the
weight of the edge, or nothing: the edge is forbidden and no matching may use it. The constructors that check their input
(`Weights.ofRows`, `Weights.ofMarkedRows`, and the reader of texts) refuse what is not finite; `Weights.ofFn` forbids it.
-/

namespace PerfectMatching

/-- A square matrix of weights, some of them forbidden. -/
structure Weights (α : Type) where
  n : Nat
  entries : Vector (Option α) (n * n)

namespace Weights

/-- The place of an entry, counted row by row. -/
theorem position_lt {n : Nat} (i j : Fin n) : i.val * n + j.val < n * n :=
  calc i.val * n + j.val < i.val * n + n := Nat.add_lt_add_left j.isLt _
    _ = (i.val + 1) * n := (Nat.succ_mul _ _).symm
    _ ≤ n * n := Nat.mul_le_mul_right n i.isLt

/-- Every place is that of a row and a column. -/
theorem exists_position {n k : Nat} (h : k < n * n) : ∃ i j : Fin n, i.val * n + j.val = k :=
  have hn : 0 < n := Nat.pos_of_ne_zero fun hn => absurd h (by simp [hn])
  ⟨⟨k / n, Nat.div_lt_of_lt_mul h⟩, ⟨k % n, Nat.mod_lt k hn⟩, Nat.div_add_mod' k n⟩

variable {α : Type}

instance [BEq α] : BEq (Weights α) where
  beq w v := w.n == v.n && w.entries.toArray == v.entries.toArray

/-! ## Reading -/

/-- The edge from row `i` to column `j`. -/
def edge (w : Weights α) (i j : Fin w.n) : Option α := w.entries.get ⟨i.val * w.n + j.val, position_lt i j⟩

/-- Every entry is that of an edge. -/
theorem exists_edge_of_mem {w : Weights α} {entry : Option α} (h : entry ∈ w.entries.toList) : ∃ i j, w.edge i j = entry := by
  obtain ⟨k, hk, rfl⟩ := Vector.mem_iff_getElem.1 (Vector.mem_toList_iff.1 h)
  obtain ⟨i, j, rfl⟩ := exists_position hk
  exact ⟨i, j, rfl⟩

/-- The place of row `i` and column `j`, which need not be a row and a column of the matrix. Places are words of
64 bits. -/
def position (w : Weights α) (i j : Nat) : Nat :=
  let p := i * w.n + j
  if p < w.n * w.n then p else p % wordLimit

/-- The entry at the place of row `i` and column `j`, unless that place is past the last entry. -/
def get? (w : Weights α) (i j : Nat) : Option (Option α) := w.entries[w.position i j]?

/-- The place of a row and a column of the matrix is that of their edge. -/
theorem position_eq (w : Weights α) (i j : Fin w.n) : w.position i j = i.val * w.n + j.val := if_pos (position_lt i j)

/-- The entry of a row and a column of the matrix is their edge. -/
theorem get?_eq_edge (w : Weights α) (i j : Fin w.n) : w.get? i j = some (w.edge i j) := by
  have h : w.position i j < w.n * w.n := w.position_eq i j ▸ position_lt i j
  unfold get? edge
  rw [Vector.getElem?_eq_getElem h]
  simp only [position_eq]
  rfl

/-- The `n` entries from the first place of row `i` on, unless they reach past the last entry. -/
def row? (w : Weights α) (i : Nat) : Option (List (Option α)) :=
  let start := w.position i 0
  if start + w.n ≤ w.n * w.n then some ((w.entries.toList.drop start).take w.n) else none

/-- The entries, a list for each row. -/
def rows (w : Weights α) : List (List (Option α)) :=
  (List.finRange w.n).map fun i => (List.finRange w.n).map fun j => w.edge i j

/-- The weights of the edges that are allowed, row by row. -/
def allowed (w : Weights α) : List α := w.entries.toList.filterMap id

/-- Some edge is forbidden. -/
def anyForbidden (w : Weights α) : Bool := w.entries.toList.any Option.isNone

/-- Every weight changed in the same way; forbidden edges stay forbidden. -/
def map {β : Type} (f : α → β) (w : Weights α) : Weights β := ⟨w.n, w.entries.map (Option.map f)⟩

/-- An edge of a changed matrix is the changed edge. -/
theorem edge_map {β : Type} (f : α → β) (w : Weights α) (i j : Fin w.n) : (w.map f).edge i j = (w.edge i j).map f :=
  Vector.getElem_map _ _

/-- An entry of a changed matrix is the changed entry. -/
theorem get?_map {β : Type} (f : α → β) (w : Weights α) (i j : Nat) :
    (w.map f).get? i j = (w.get? i j).map (Option.map f) :=
  Vector.getElem?_map

/-- An entry that is not forbidden is among the allowed weights. -/
theorem mem_allowed_of_get? {w : Weights α} {i j : Nat} {x : α} (h : w.get? i j = some (some x)) : x ∈ w.allowed := by
  obtain ⟨hlt, hget⟩ := Vector.getElem?_eq_some_iff.1 h
  exact List.mem_filterMap.2 ⟨some x, Vector.mem_toList_iff.2 (hget ▸ Vector.getElem_mem hlt), rfl⟩

section Arithmetic

variable [Scalar α]

/-- The least weight of an edge that is allowed, if there is one. -/
def min? (w : Weights α) : Option α :=
  match w.allowed with
  | [] => none
  | x :: xs => some (xs.foldl Scalar.min x)

/-- Adds to `sum` the weights of the edges from row `i`, row `i + 1` and so on to the columns of a list. -/
def addTotal? (w : Weights α) (sum : α) (i : Nat) : List Nat → Option (Option α)
  | [] => some (some sum)
  | j :: rest =>
    match w.get? i j with
    | none => none
    | some none => some none
    | some (some x) => w.addTotal? (sum + x) (i + 1) rest

/-- The total weight of the edges from the first row to the first column of a list, from the second to the second, and so
on. It is nothing if an edge is forbidden, and there is no answer if a place before the first such edge is past the last
entry. -/
def total? (w : Weights α) (columns : List Nat) : Option (Option α) := w.addTotal? (-Scalar.zero) 0 columns

/-! ## Building -/

/-- The matrix whose entry at row `i` and column `j` is `f i j`; what is not finite is forbidden. -/
def ofFn (n : Nat) (f : Nat → Nat → Option α) : Weights α :=
  ⟨n, Vector.ofFn fun k => (f (k.val / n) (k.val % n)).filter Scalar.isFinite⟩

/-- The matrix whose entries are found one after another, row by row, each at the cost of some effect; what is not finite is
forbidden. -/
def ofFnM {m : Type → Type} [Monad m] (n : Nat) (f : Nat → Nat → m (Option α)) : m (Weights α) := do
  let entries ← Vector.ofFnM fun (k : Fin (n * n)) => do
    let entry ← f (k.val / n) (k.val % n)
    pure (entry.filter Scalar.isFinite)
  pure ⟨n, entries⟩

/-- Entries that cost nothing are those of a function. -/
theorem ofFnM_pure {m : Type → Type} [Monad m] [LawfulMonad m] (n : Nat) (f : Nat → Nat → Option α) :
    ofFnM n (fun i j => (pure (f i j) : m (Option α))) = pure (ofFn n f) := by
  simp [ofFnM, ofFn, Vector.ofFnM_pure]

/-- Puts the entries of row `i` from column `j` on behind those in the buffer, up to the first one that is not finite. -/
def pushRow (i : Nat) : Nat → List (Option α) → Array (Option α) → Except (Failure α) (Array (Option α))
  | _, [], buffer => .ok buffer
  | j, entry :: row, buffer =>
    if entry.any fun x => !Scalar.isFinite x then .error (.notFinite i j) else pushRow i (j + 1) row (buffer.push entry)

/-- Puts the rows of a matrix with `n` rows from row `i` on behind those in the buffer, up to the first one that has the wrong
length or an entry that is not finite. -/
def pushRows (n : Nat) : Nat → List (List (Option α)) → Array (Option α) → Except (Failure α) (Array (Option α))
  | _, [], buffer => .ok buffer
  | i, row :: rows, buffer =>
    if row.length ≠ n then .error (.sizeMismatch n row.length)
    else do
      let buffer ← pushRow i 0 row buffer
      pushRows n (i + 1) rows buffer

/-- The buffer holds an entry more for each entry of the row. -/
theorem size_of_pushRow {i j : Nat} {row : List (Option α)} {buffer buffer' : Array (Option α)}
    (h : pushRow i j row buffer = .ok buffer') : buffer'.size = buffer.size + row.length := by
  induction row generalizing j buffer with
  | nil => exact Except.ok.inj h ▸ rfl
  | cons entry row ih =>
    unfold pushRow at h
    split at h
    · exact nomatch h
    · rw [ih h, Array.size_push, List.length_cons, Nat.add_assoc, Nat.add_comm 1]

/-- The buffer holds `n` entries more for each row. -/
theorem size_of_pushRows {n i : Nat} {rows : List (List (Option α))} {buffer buffer' : Array (Option α)}
    (h : pushRows n i rows buffer = .ok buffer') : buffer'.size = buffer.size + rows.length * n := by
  induction rows generalizing i buffer with
  | nil => exact Except.ok.inj h ▸ (by simp)
  | cons row rows ih =>
    unfold pushRows at h
    split at h
    · exact nomatch h
    · rename_i hlength
      cases hrow : pushRow i 0 row buffer with
      | error e => exact nomatch hrow ▸ h
      | ok next =>
        rw [hrow] at h
        rw [ih h, size_of_pushRow hrow, Decidable.not_not.1 hlength, List.length_cons, Nat.succ_mul, Nat.add_assoc, Nat.add_comm n]

/-- The matrix with these rows, unless a row has the wrong length or an entry is not finite. -/
def ofRows (rows : List (List (Option α))) : Except (Failure α) (Weights α) :=
  match h : pushRows rows.length 0 rows #[] with
  | .error e => .error e
  | .ok entries => .ok ⟨rows.length, entries, (size_of_pushRows h).trans (Nat.zero_add _)⟩

/-- The matrix with these rows, in which minus infinity marks a forbidden edge. -/
def ofMarkedRows (rows : List (List Float)) : Except (Failure Float) (Weights Float) :=
  ofRows (rows.map (·.map fun x => if x == -Scalar.infinity then none else some x))

/-! ## Changing -/

/-- The matrix with the entry at the place of row `i` and column `j` forbidden, unless that place is past the last
entry. -/
def forbid? (w : Weights α) (i j : Nat) : Option (Weights α) :=
  if h : w.position i j < w.n * w.n then some ⟨w.n, w.entries.set (w.position i j) none h⟩ else none

/-- Every weight turned into its opposite. -/
def negated (w : Weights α) : Weights α := w.map (-·)

/-- Every weight increased by `c`. -/
def shifted (w : Weights α) (c : α) : Weights α := w.map (· + c)

end Arithmetic

end Weights

end PerfectMatching
