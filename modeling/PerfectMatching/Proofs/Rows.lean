import PerfectMatching.Proofs.Binary64.Opposite
import PerfectMatching.Proofs.Entries
import PerfectMatching.Weights.Grammar

/-!
# Matrices from rows

A list of rows is taken as a matrix exactly if every row has as many entries as there are rows and no entry is bad, and otherwise refused
for the first faulty row: for its length if that is wrong, for its first bad entry if not. Where nothing stands for a forbidden edge, the
bad entries are those that are not finite; where minus infinity does, they are plus infinity and what is no number
(`Weights.ofRows_spec`). The two nested loops fill one buffer, and as long as nothing is wrong it holds the rows one behind the other
(`Weights.pushRows_append`), so that the place of an entry follows from its row and column (`Weights.getElem?_flatten`).
-/

namespace PerfectMatching.Weights

open Binary64

variable {α β γ : Type}

/-! ## Faulty rows -/

/-- All rows are as they should be, or there is something wrong with the first one that is not. -/
theorem isRow_or_faulty (may : β → Prop) (rows : List (List β)) :
    (∀ row ∈ rows, IsRow may rows.length row) ∨ ∃ e : Failure α, Faulty may rows e := by
  rcases forall_or_exists_first (IsRow may rows.length) rows with hall | ⟨before, row, after, heq, hbefore, hrow⟩
  · exact Or.inl hall
  · by_cases hlength : row.length = rows.length
    · rcases forall_or_exists_first may row with hmay | ⟨front, x, back, hsplit, hfront, hx⟩
      · exact absurd ⟨hlength, hmay⟩ hrow
      · exact Or.inr ⟨_, .entry heq hbefore hlength hsplit hfront hx⟩
    · exact Or.inr ⟨_, .length heq hbefore hlength⟩

/-- A reader that takes the rows that are as they should be, and refuses the others for what is wrong with them, takes no others and
refuses for nothing else. -/
theorem decides {may : β → Prop} {stands : β → Option α → Prop} {rows : List (List β)}
    {result : Except (Failure α) (Weights α)}
    (htakes : (∀ row ∈ rows, IsRow may rows.length row) → ∃ w, result = .ok w ∧ Lists stands rows w)
    (hrefuses : ∀ e, Faulty may rows e → result = .error e) :
    ((∃ w, result = .ok w) ↔ ∀ row ∈ rows, IsRow may rows.length row) ∧ (∀ w, result = .ok w → Lists stands rows w) ∧
      ∀ e, result = .error e ↔ Faulty may rows e := by
  rcases isRow_or_faulty may rows with hrows | ⟨e, he⟩
  · obtain ⟨w, rfl, hw⟩ := htakes hrows
    refine ⟨iff_of_true ⟨w, rfl⟩ hrows, fun v hv => Except.ok.inj hv ▸ hw, fun e => iff_of_false nofun fun he => ?_⟩
    exact nomatch hrefuses e he
  · obtain rfl := hrefuses e he
    refine ⟨iff_of_false nofun fun hrows => ?_, nofun, fun d => ⟨fun hd => Except.error.inj hd ▸ he, hrefuses d⟩⟩
    obtain ⟨w, hw, _⟩ := htakes hrows
    exact nomatch hw

/-- Rows whose entries are changed are as they should be if the changed entries are. -/
theorem IsRow.map {f : β → γ} {may : β → Prop} {may' : γ → Prop} (hmay : ∀ x, may' (f x) ↔ may x) {n : ℕ} {row : List β}
    (h : IsRow may n row) : IsRow may' n (row.map f) := by
  refine ⟨(List.length_map f).trans h.1, fun y hy => ?_⟩
  obtain ⟨x, hx, rfl⟩ := List.mem_map.1 hy
  exact (hmay x).2 (h.2 x hx)

/-- The same is wrong with rows whose entries are changed if the changed entries are bad exactly if the entries were. -/
theorem Faulty.map {f : β → γ} {may : β → Prop} {may' : γ → Prop} (hmay : ∀ x, may' (f x) ↔ may x) {rows : List (List β)}
    {e : Failure α} (h : Faulty may rows e) : Faulty may' (rows.map (List.map f)) e := by
  have hlength : (rows.map (List.map f)).length = rows.length := List.length_map _
  have hsplit : ∀ {before after : List (List β)} {row : List β}, rows = before ++ row :: after →
      rows.map (List.map f) = before.map (List.map f) ++ row.map f :: after.map (List.map f) := by
    rintro before after row rfl
    rw [List.map_append, List.map_cons]
  have hbefore : ∀ {before : List (List β)}, (∀ r ∈ before, IsRow may rows.length r) →
      ∀ r ∈ before.map (List.map f), IsRow may' (rows.map (List.map f)).length r := by
    intro before hbefore r hr
    obtain ⟨row, hrow, rfl⟩ := List.mem_map.1 hr
    exact hlength ▸ (hbefore row hrow).map hmay
  cases h with
  | @length before after row heq hrows hne =>
    have hne' : (row.map f).length ≠ (rows.map (List.map f)).length := by rwa [hlength, List.length_map]
    have h' : Faulty may' (rows.map (List.map f)) (.sizeMismatch (rows.map (List.map f)).length (row.map f).length : Failure α) :=
      .length (hsplit heq) (hbefore hrows) hne'
    rwa [hlength, List.length_map] at h'
  | @entry before after row front back x heq hrows hcount hrow hfront hx =>
    have hcount' : (row.map f).length = (rows.map (List.map f)).length := by rw [hlength, List.length_map, hcount]
    have hrow' : row.map f = front.map f ++ f x :: back.map f := by rw [hrow, List.map_append, List.map_cons]
    have hfront' : ∀ y ∈ front.map f, may' y := by
      intro y hy
      obtain ⟨z, hz, rfl⟩ := List.mem_map.1 hy
      exact (hmay z).2 (hfront z hz)
    have h' : Faulty may' (rows.map (List.map f)) (.notFinite (before.map (List.map f)).length (front.map f).length : Failure α) :=
      .entry (hsplit heq) (hbefore hrows) hcount' hrow' hfront' fun h => hx ((hmay x).1 h)
    rwa [List.length_map, List.length_map] at h'

/-! ## Entries that are forbidden or finite -/

section Finite

variable [Scalar α]

/-- The entry at which a row is given up is neither forbidden nor finite. -/
theorem any_eq_false_iff {entry : Option α} : (entry.any fun x => !Scalar.isFinite x) = false ↔ IsFiniteEntry entry := by
  cases entry with
  | none => exact iff_of_true rfl nofun
  | some x => simp [IsFiniteEntry]

/-- Entries that are forbidden or finite are put into the buffer one behind the other. -/
theorem pushRow_append {i j : ℕ} {front rest : List (Option α)} (h : ∀ x ∈ front, IsFiniteEntry x) (buffer : Array (Option α)) :
    pushRow i j (front ++ rest) buffer = pushRow i (j + front.length) rest (buffer ++ front.toArray) := by
  induction front generalizing j buffer with
  | nil => simp
  | cons entry front ih =>
    obtain ⟨hentry, hfront⟩ := List.forall_mem_cons.1 h
    rw [List.cons_append, pushRow, any_eq_false_iff.2 hentry, if_neg Bool.false_ne_true, ih hfront, List.length_cons,
      Nat.add_right_comm, Nat.add_assoc, Array.push_eq_append, Array.append_assoc]
    simp

/-- A row that is as it should be is put into the buffer as a whole. -/
theorem pushRow_of_isRow {n i : ℕ} {row : List (Option α)} (h : IsRow IsFiniteEntry n row) (buffer : Array (Option α)) :
    pushRow i 0 row buffer = .ok (buffer ++ row.toArray) := by
  have happend : pushRow i 0 (row ++ []) buffer = pushRow i (0 + row.length) [] (buffer ++ row.toArray) := pushRow_append h.2 buffer
  rwa [List.append_nil] at happend

/-- Rows that are as they should be are put into the buffer one behind the other. -/
theorem pushRows_append {n i : ℕ} {before rest : List (List (Option α))} (h : ∀ row ∈ before, IsRow IsFiniteEntry n row)
    (buffer : Array (Option α)) :
    pushRows n i (before ++ rest) buffer = pushRows n (i + before.length) rest (buffer ++ before.flatten.toArray) := by
  induction before generalizing i buffer with
  | nil => simp
  | cons row before ih =>
    obtain ⟨hrow, hbefore⟩ := List.forall_mem_cons.1 h
    rw [List.cons_append, pushRows, if_neg (not_not.2 hrow.1), pushRow_of_isRow hrow]
    change pushRows n (i + 1) (before ++ rest) (buffer ++ row.toArray) = _
    rw [ih hbefore, List.length_cons, Nat.add_right_comm, Nat.add_assoc, List.flatten_cons, Array.append_assoc]
    simp

/-- Among rows of equal length the entry in column `j` of row `i` stands at place `i * n + j`. -/
theorem getElem?_flatten {n i j : ℕ} {rows : List (List β)} (h : ∀ row ∈ rows, row.length = n) {row : List β}
    (hi : rows[i]? = some row) (hj : j < n) : rows.flatten[i * n + j]? = row[j]? := by
  induction rows generalizing i with
  | nil => exact nomatch hi
  | cons first rows ih =>
    obtain ⟨hfirst, hrows⟩ := List.forall_mem_cons.1 h
    rw [List.flatten_cons]
    cases i with
    | zero =>
      obtain rfl := Option.some.inj hi
      rw [Nat.zero_mul, Nat.zero_add, List.getElem?_append_left (hfirst ▸ hj)]
    | succ i =>
      rw [List.getElem?_append_right (by rw [hfirst, Nat.succ_mul]; omega), ← ih hrows hi]
      congr 1
      rw [hfirst, Nat.succ_mul]
      omega

/-- Rows with which something is wrong are refused for it. -/
theorem pushRows_of_faulty {rows : List (List (Option α))} {e : Failure α} (h : Faulty IsFiniteEntry rows e) :
    pushRows rows.length 0 rows #[] = .error e := by
  cases h with
  | @length before after row heq hbefore hne =>
    rw [heq, pushRows_append (heq ▸ hbefore), pushRows, if_pos (heq ▸ hne)]
  | @entry before after row front back x heq hbefore hcount hrow hfront hx =>
    have hbad : (x.any fun x => !Scalar.isFinite x) = true := by
      rw [← Bool.not_eq_false, any_eq_false_iff]
      exact hx
    have hpush : ∀ buffer, pushRow before.length 0 row buffer = .error (.notFinite before.length front.length) := by
      intro buffer
      rw [hrow, pushRow_append hfront, pushRow, if_pos hbad, Nat.zero_add]
    rw [heq, pushRows_append (heq ▸ hbefore), pushRows, if_neg (not_not.2 (heq ▸ hcount)), Nat.zero_add, hpush]
    rfl

/-- Rows are refused for what the loop over them finds. -/
theorem ofRows_of_faulty {rows : List (List (Option α))} {e : Failure α} (h : Faulty IsFiniteEntry rows e) : ofRows rows = .error e := by
  have hpush := pushRows_of_faulty h
  unfold ofRows
  split
  · rename_i hrows
    rw [Except.error.inj (hrows.symm.trans hpush)]
  · rename_i hrows
    exact nomatch hrows.symm.trans hpush

/-- Rows that are as they should be are taken as the matrix they list. -/
theorem exists_ofRows {rows : List (List (Option α))} (h : ∀ row ∈ rows, IsRow IsFiniteEntry rows.length row) :
    ∃ w, ofRows rows = .ok w ∧ Lists Eq rows w := by
  have hpush : pushRows rows.length 0 rows #[] = .ok rows.flatten.toArray := by
    have happend : pushRows rows.length 0 (rows ++ []) #[] = pushRows rows.length (0 + rows.length) [] (#[] ++ rows.flatten.toArray) :=
      pushRows_append h #[]
    rwa [List.append_nil, Array.empty_append] at happend
  unfold ofRows
  split
  · rename_i hrows
    exact nomatch hrows.symm.trans hpush
  · rename_i buffer hrows
    obtain rfl : rows.flatten.toArray = buffer := Except.ok.inj (hpush.symm.trans hrows)
    refine ⟨_, rfl, rfl, fun i j => ?_⟩
    obtain ⟨hcount, _⟩ := h _ (List.getElem_mem i.isLt)
    have hj : j.val < rows[i.val].length := hcount.symm ▸ j.isLt
    have hrow := List.getElem?_eq_getElem i.isLt
    have hentry := List.getElem?_eq_getElem hj
    have hplace := getElem?_flatten (fun row hrow => (h row hrow).1) hrow j.isLt
    rw [hentry] at hplace
    exact ⟨_, _, hrow, hentry, ((List.getElem?_eq_some_iff.1 hplace).2).symm⟩

/-- Rows that are taken as a matrix are as they should be and list it. -/
theorem lists_of_ofRows {rows : List (List (Option α))} {w : Weights α} (h : ofRows rows = .ok w) :
    (∀ row ∈ rows, IsRow IsFiniteEntry rows.length row) ∧ Lists Eq rows w := by
  obtain ⟨htaken, hlists, _⟩ := decides exists_ofRows fun _ (he : Faulty IsFiniteEntry rows _) => ofRows_of_faulty he
  exact ⟨htaken.1 ⟨w, h⟩, hlists w h⟩

end Finite

/-! ## Entries that may be minus infinity -/

/-- What an entry stands for if minus infinity stands for a forbidden edge. -/
def marked (x : Float) : Option Float := if x == -Scalar.infinity then none else some x

/-- Minus infinity. -/
theorem unpacked_neg_infinity : unpacked (-Scalar.infinity) = .infinity .negative := by
  rw [unpacked_neg, unpacked_infinity]
  rfl

/-- An entry stands for a forbidden edge if it is minus infinity, and else for itself. -/
theorem marks_marked (x : Float) : Marks x (marked x) := by
  have hbeq : (x == -Scalar.infinity) = true ↔ x = -Scalar.infinity := beq_iff_eq_of_infinity unpacked_neg_infinity
  unfold marked
  split
  · rename_i h
    exact ⟨iff_of_true rfl (hbeq.1 h), nofun⟩
  · rename_i h
    refine ⟨iff_of_false nofun fun heq => h (hbeq.2 heq), fun y hy => ?_⟩
    exact (Option.some.inj hy).symm

/-- An entry stands for a forbidden edge or a finite weight if it is neither plus infinity nor undefined. -/
theorem isFiniteEntry_marked (x : Float) : IsFiniteEntry (marked x) ↔ IsMarkedEntry x := by
  have hmarks := marks_marked x
  constructor
  · intro h
    cases hx : marked x with
    | none =>
      obtain rfl := hmarks.1.1 hx
      refine ⟨?_, fun heq => ?_⟩
      · rw [isNaN_neg]
        exact isNaN_infinity
      · have := unpacked_neg_infinity
        rw [heq, unpacked_infinity] at this
        exact nomatch this
    | some y =>
      obtain rfl := hmarks.2 y hx
      have hfin : y.isFinite = true := h y hx
      refine ⟨isNaN_of_isFinite hfin, ?_⟩
      rintro rfl
      exact Bool.noConfusion (hfin.symm.trans (LawfulScalar.isFinite_infinity (α := Float)))
  · rintro ⟨hnan, hinf⟩ y hy
    obtain rfl := hmarks.2 y hy
    rcases infinity_or_isFinite hnan with ⟨s, hs⟩ | hfin
    · cases s with
      | positive => exact absurd (eq_of_infinity hs unpacked_infinity) hinf
      | negative =>
        rw [hmarks.1.2 (eq_of_infinity hs unpacked_neg_infinity)] at hy
        exact nomatch hy
    · exact hfin

/-- The rows of a matrix in which minus infinity stands for the forbidden edges list it. -/
theorem Lists.of_marked {rows : List (List Float)} {w : Weights Float} (h : Lists Eq (rows.map (List.map marked)) w) :
    Lists Marks rows w := by
  refine ⟨h.n_eq.trans (List.length_map _), fun i j => ?_⟩
  obtain ⟨_, entry, hrow, hentry, hedge⟩ := h.edge i j
  rw [List.getElem?_map] at hrow
  obtain ⟨row, hr, rfl⟩ := Option.map_eq_some_iff.1 hrow
  rw [List.getElem?_map] at hentry
  obtain ⟨x, hx, rfl⟩ := Option.map_eq_some_iff.1 hentry
  exact ⟨row, x, hr, hx, hedge ▸ marks_marked x⟩

/-- Rows of forbidden edges and weights are taken as a matrix exactly if each has as many entries as there are rows and all weights are
finite, and then each edge is the entry of its row and column. Rows of numbers are taken as a matrix exactly if each has as many entries
as there are rows and none is undefined or plus infinity, and then an edge is forbidden if its entry is minus infinity, and else has
exactly this weight. Other rows are refused for the first one that is faulty: for its length if that is wrong, and for its first bad
entry if not. -/
theorem ofRows_spec :
    (∀ rows : List (List (Option Float)),
      ((∃ w, ofRows rows = .ok w) ↔ ∀ row ∈ rows, IsRow IsFiniteEntry rows.length row) ∧
        (∀ w, ofRows rows = .ok w → Lists Eq rows w) ∧
        ∀ e, ofRows rows = .error e ↔ Faulty IsFiniteEntry rows e) ∧
    ∀ rows : List (List Float),
      ((∃ w, ofMarkedRows rows = .ok w) ↔ ∀ row ∈ rows, IsRow IsMarkedEntry rows.length row) ∧
        (∀ w, ofMarkedRows rows = .ok w → Lists Marks rows w) ∧
        ∀ e, ofMarkedRows rows = .error e ↔ Faulty IsMarkedEntry rows e := by
  refine ⟨fun rows => decides exists_ofRows fun e => ofRows_of_faulty, fun rows => decides (fun hrows => ?_) fun e he => ?_⟩
  · have hmarked : ∀ row ∈ rows.map (List.map marked), IsRow IsFiniteEntry (rows.map (List.map marked)).length row := by
      intro row hrow
      obtain ⟨r, hr, rfl⟩ := List.mem_map.1 hrow
      rw [List.length_map]
      exact (hrows r hr).map isFiniteEntry_marked
    obtain ⟨w, hw, hlists⟩ := exists_ofRows hmarked
    exact ⟨w, hw, hlists.of_marked⟩
  · exact ofRows_of_faulty (he.map isFiniteEntry_marked)

end PerfectMatching.Weights
