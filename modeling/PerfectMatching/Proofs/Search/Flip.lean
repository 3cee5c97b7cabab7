import PerfectMatching.Proofs.Search.Trees

/-!
# Flipping a path

While an augmenting path is walked back, the mates agree except at one column: its old mate has just been given another
column, and no row holds it (`Loose`). Each row on the way is less deep than the one before, so those still to come are as the
trees left them. Main statement: from a column that is reached and not matched the walk comes to a root, and then the mates
agree again and one more row is matched (`Grown.flip`).
-/

namespace PerfectMatching.PrimalDual.State

variable {α : Type} {n : ℕ} {s t : State α n} {i j : Fin n}

/-- The mates agree, but for a column that no row holds. -/
structure Loose (s : State α n) (j : Fin n) : Prop where
  agree : ∀ a b, b ≠ j → (s.rowMate.get a = some b ↔ s.colMate.get b = some a)
  free : ∀ a, s.rowMate.get a ≠ some j

/-- The state `t` is `s` after the path that ends in column `j` has been flipped. -/
structure Flipped (s : State α n) (j : Fin n) (t : State α n) : Prop where
  rowDual_eq : t.rowDual = s.rowDual
  colDual_eq : t.colDual = s.colDual
  agree : t.MatesAgree
  new_edge : ∀ a b, t.rowMate.get a = some b →
    s.rowMate.get a = some b ∨ s.colLabel.get b = some a ∧ (b = j ∨ ∃ c, s.rowLabel.get c = .via b)
  row_matched : ∀ a, s.rowMate.get a ≠ none → t.rowMate.get a ≠ none
  col_matched : ∀ b, s.colMate.get b ≠ none → t.colMate.get b ≠ none
  matched_eq : t.matched = s.matched + 1

/-! ## Pairing -/

/-- The mate of a row after a pairing. -/
theorem get_rowMate_pair (s : State α n) (i j a : Fin n) :
    (s.pair i j).rowMate.get a = if i = a then some j else s.rowMate.get a := get_set _ _ _ _

/-- The mate of a column after a pairing. -/
theorem get_colMate_pair (s : State α n) (i j b : Fin n) :
    (s.pair i j).colMate.get b = if j = b then some i else s.colMate.get b := get_set _ _ _ _

/-- A row that stays matched does not change the number of matched rows, another one increases it. -/
theorem matched_pair (s : State α n) (i j : Fin n) :
    (s.pair i j).matched = s.matched + if s.rowMate.get i = none then 1 else 0 := by
  change (s.rowMate.set i (some j) i.isLt).countP Option.isSome = _
  rw [Vector.countP_set, Option.isSome_some, if_pos rfl]
  cases hi : s.rowMate.get i with
  | none =>
    have hget : s.rowMate[i.val] = none := hi
    simp [hget, matched]
  | some b =>
    have hget : s.rowMate[i.val] = some b := hi
    have hpos : 0 < s.rowMate.countP Option.isSome :=
      Vector.countP_pos_iff.2 ⟨_, Vector.getElem_mem i.isLt, by rw [hget]; rfl⟩
    simp only [hget, Option.isSome_some, if_true, matched]
    rw [if_neg (Option.some_ne_none b)]
    omega

/-- After a pairing the mates agree at every column but the one that the row has left. -/
theorem Loose.agree_pair (h : Loose s j) (a : Fin n) {c : Fin n} (hc : s.rowMate.get i ≠ some c) :
    (s.pair i j).rowMate.get a = some c ↔ (s.pair i j).colMate.get c = some a := by
  rw [get_rowMate_pair, get_colMate_pair]
  by_cases hjc : j = c
  · subst hjc
    rw [if_pos rfl]
    split
    · rename_i hia
      simp [hia]
    · rename_i hia
      exact iff_of_false (h.free a) fun heq => hia (Option.some.inj heq)
  · rw [if_neg hjc]
    split
    · rename_i hia
      subst hia
      exact iff_of_false (fun heq => hjc (Option.some.inj heq)) ((not_congr (h.agree i c (Ne.symm hjc))).1 hc)
    · exact h.agree a c (Ne.symm hjc)

/-- Giving a column that no row holds to a matched row leaves the column of that row without one. -/
theorem Loose.pair (h : Loose s j) {b : Fin n} (hi : s.rowMate.get i = some b) :
    (s.pair i j).colMate.get b = some i ∧ Loose (s.pair i j) b := by
  have hbj : b ≠ j := by
    rintro rfl
    exact h.free i hi
  have hmate := (h.agree i b hbj).1 hi
  refine ⟨?_, fun a c hc => h.agree_pair a ?_, fun a => ?_⟩
  · rw [get_colMate_pair, if_neg (Ne.symm hbj)]
    exact hmate
  · rw [hi]
    exact fun heq => hc (Option.some.inj heq).symm
  · rw [get_rowMate_pair]
    split
    · exact fun heq => hbj (Option.some.inj heq).symm
    · rename_i hia
      intro heq
      exact hia (Option.some.inj (hmate.symm.trans ((h.agree a b hbj).1 heq)))

/-! ## Walking back -/

/-- What is left of the way from row `i`, at depth `k`: the rows on it have the mates that their labels tell. -/
def Untouched (s : State α n) (k : ℕ) : Prop :=
  ∀ l a, l ≤ k → Rooted s l a →
    (s.rowLabel.get a = .root → s.rowMate.get a = none) ∧ ∀ b, s.rowLabel.get a = .via b → s.rowMate.get a = some b

/-- Pairing a row touches no row that is less deep. -/
theorem Untouched.pair {k : ℕ} (h : Untouched s (k + 1)) (hi : Rooted s (k + 1) i) (j : Fin n) :
    Untouched (s.pair i j) k := by
  intro l a hl ha
  have ha : Rooted s l a := ha.mono (fun _ _ => rfl) fun _ _ _ => rfl
  have hne : ¬i = a := by
    rintro rfl
    have := ha.depth_unique hi
    omega
  rw [get_rowMate_pair, if_neg hne]
  exact h l a (by omega) ha

/-- Flipping the rest of a path after its first edge flips the whole. -/
theorem Flipped.of_pair {b : Fin n} (hlabel : s.colLabel.get j = some i) (hvia : s.rowLabel.get i = .via b)
    (hi : s.rowMate.get i = some b) (h : Flipped (s.pair i j) b t) : Flipped s j t := by
  refine ⟨h.rowDual_eq, h.colDual_eq, h.agree, ?_, ?_, ?_, ?_⟩
  · intro a c hac
    rcases h.new_edge a c hac with hac | ⟨hac, hc⟩
    · rw [get_rowMate_pair] at hac
      split at hac
      · rename_i hia
        obtain rfl := Option.some.inj hac
        exact Or.inr ⟨hia ▸ hlabel, Or.inl rfl⟩
      · exact Or.inl hac
    · refine Or.inr ⟨hac, Or.inr ?_⟩
      rcases hc with rfl | hc
      · exact ⟨i, hvia⟩
      · exact hc
  · intro a ha
    apply h.row_matched
    rw [get_rowMate_pair]
    split
    · exact nofun
    · exact ha
  · intro c hc
    apply h.col_matched
    rw [get_colMate_pair]
    split
    · exact nofun
    · exact hc
  · rw [h.matched_eq, matched_pair, if_neg (by rw [hi]; exact nofun)]

/-- Giving a column that no row holds to a root flips a path of one edge. -/
theorem Loose.flipped (h : Loose s j) (hlabel : s.colLabel.get j = some i) (hi : s.rowMate.get i = none) :
    Flipped s j (s.pair i j) := by
  refine ⟨rfl, rfl, fun a b => h.agree_pair a (by rw [hi]; exact nofun), ?_, ?_, ?_, ?_⟩
  · intro a b hab
    rw [get_rowMate_pair] at hab
    split at hab
    · rename_i hia
      obtain rfl := Option.some.inj hab
      exact Or.inr ⟨hia ▸ hlabel, Or.inl rfl⟩
    · exact Or.inl hab
  · intro a ha
    rw [get_rowMate_pair]
    split
    · exact nofun
    · exact ha
  · intro b hb
    rw [get_colMate_pair]
    split
    · exact nofun
    · exact hb
  · rw [matched_pair, if_pos hi]

/-- Walking back along a path changes no number, wherever it stops. -/
theorem flipFrom_numbers (rows : ℕ) (released : Option (Fin n)) (j : Fin n) (s : State α n) :
    (flipFrom rows released j s).state.rowDual = s.rowDual ∧ (flipFrom rows released j s).state.colDual = s.colDual ∧
      (flipFrom rows released j s).state.slack = s.slack := by
  induction rows generalizing released j s with
  | zero => exact ⟨rfl, rfl, rfl⟩
  | succ rows ih =>
    rw [flipFrom]
    split
    · exact ⟨rfl, rfl, rfl⟩
    · cases s.colLabel.get j with
      | none => exact ⟨rfl, rfl, rfl⟩
      | some i =>
        simp only
        cases (s.pair i j).rowLabel.get i with
        | root => exact ⟨rfl, rfl, rfl⟩
        | unreached => exact ⟨rfl, rfl, rfl⟩
        | via above => exact ih (some i) above (s.pair i j)

/-- Walking back from a column that no row holds, through a row at some depth, comes to a root. -/
theorem flipFrom_spec {k rows : ℕ} (hrows : k < rows) (hi : Rooted s k i) (hlabel : s.colLabel.get j = some i)
    (hloose : Loose s j) (hrest : Untouched s k) :
    ∃ t events, flipFrom rows (s.colMate.get j) j s = ⟨t, none, events⟩ ∧ Flipped s j t := by
  induction k generalizing s i j rows with
  | zero =>
    obtain ⟨rows, rfl⟩ := Nat.exists_eq_add_of_le' hrows
    cases hi with
    | root hroot =>
      refine ⟨s.pair i j, [.flipped i j], ?_, hloose.flipped hlabel ((hrest 0 i le_rfl (.root hroot)).1 hroot)⟩
      rw [flipFrom, if_neg (not_not.2 rfl), hlabel]
      simp only [pair, hroot]
  | succ k ih =>
    obtain ⟨rows, rfl⟩ := Nat.exists_eq_add_of_le' (Nat.lt_of_le_of_lt (Nat.zero_le _) hrows)
    have hdeep := hi
    cases hi with
    | @child _ p _ b hp hvia hb =>
      have hmate := (hrest (k + 1) i le_rfl hdeep).2 b hvia
      obtain ⟨hcol, hloose'⟩ := hloose.pair hmate
      have hless : k < rows := by omega
      obtain ⟨t, events, hflip, hspec⟩ := ih hless (hp.mono (t := s.pair i j) (fun _ _ => rfl) fun _ _ _ => rfl) hb hloose'
        (hrest.pair hdeep j)
      rw [hcol] at hflip
      refine ⟨t, .flipped i j :: events, ?_, hspec.of_pair hlabel hvia hmate⟩
      rw [flipFrom, if_neg (not_not.2 rfl), hlabel]
      simp only [show (s.pair i j).rowLabel = s.rowLabel from rfl, hvia, hflip]

variable [Scalar α] [LawfulScalar α] {work : Table α n}

/-- Flipping the path that ends in a column that is reached and not matched, and is no longer on the stack, comes to a root. -/
theorem Grown.flip (h : Grown work s) (hpos : Scalar.positive (s.slack.get j) = false) (hmate : s.colMate.get j = none)
    (cols : List (Fin n)) :
    ∃ t events, State.flip { s with colStack := cols } j = ⟨t, none, events⟩ ∧ Flipped s j t := by
  obtain ⟨i, hlabel⟩ := h.exists_label hpos
  obtain ⟨k, hk⟩ := h.rooted i (h.label i j hlabel).1
  have hk' : Rooted { s with colStack := cols } k i := hk.mono (fun _ _ => rfl) fun _ _ _ => rfl
  have hloose : Loose { s with colStack := cols } j := by
    refine ⟨fun a b _ => h.agree a b, fun a ha => ?_⟩
    exact nomatch ((h.agree a j).1 ha).symm.trans hmate
  have hrest : Untouched { s with colStack := cols } k := fun l a _ _ =>
    ⟨(h.root_iff a).1, fun b hb => (h.via a b hb).1⟩
  obtain ⟨t, events, hflip, ht⟩ := flipFrom_spec (hk.depth_lt.trans (Nat.lt_succ_self n)) hk' hlabel hloose hrest
  simp only [hmate] at hflip
  exact ⟨t, events, hflip, ht.rowDual_eq, ht.colDual_eq, ht.agree, ht.new_edge, ht.row_matched, ht.col_matched, ht.matched_eq⟩

end PerfectMatching.PrimalDual.State
