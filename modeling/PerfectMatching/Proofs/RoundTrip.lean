import PerfectMatching.Matching
import PerfectMatching.Proofs.Entries
import PerfectMatching.Proofs.Grammar
import PerfectMatching.Proofs.Numerals

/-!
# Matrices that are written and read

The text of a matrix is split at its white space into the tokens it was made of, and every token is read as what it was written for: a
forbidden edge as a forbidden edge, and a finite weight as itself, bit for bit. So a matrix is read back from its text as it is
(`Weights.ofText_text`).
-/

namespace PerfectMatching

open Numeral Layout Text

/-! ## Tokens -/

namespace Text

/-- A text that is one token: it is not empty, and none of its characters is white space. -/
structure IsToken (token : List Char) : Prop where
  ne_nil : token ≠ []
  isBlank_eq_false : ∀ c ∈ token, isBlank c = false

/-- White space ends what is before it. -/
theorem foldr_cons_of_isBlank {c : Char} (hc : isBlank c = true) (text : List Char) :
    (c :: text).foldr splitBefore ([], []) = ([], tokens text) := by
  rw [List.foldr_cons, splitBefore, if_pos hc]
  rfl

/-- White space at the beginning of a text is skipped. -/
theorem tokens_cons_of_isBlank {c : Char} (hc : isBlank c = true) (text : List Char) : tokens (c :: text) = tokens text := by
  rw [tokens, foldr_cons_of_isBlank hc]
  rfl

/-- Characters that are not white space are put before the first token of a text. -/
theorem foldr_append_of_not_blank {token : List Char} (h : ∀ c ∈ token, isBlank c = false) (text : List Char) :
    (token ++ text).foldr splitBefore ([], []) =
      (token ++ (text.foldr splitBefore ([], [])).1, (text.foldr splitBefore ([], [])).2) := by
  induction token with
  | nil => rfl
  | cons c token ih =>
    rw [List.cons_append, List.foldr_cons, ih fun d hd => h d (List.mem_cons_of_mem c hd), splitBefore,
      h c List.mem_cons_self, if_neg Bool.false_ne_true, List.cons_append]

/-- A token before white space is split off. -/
theorem IsToken.tokens_append {token : List Char} (h : IsToken token) {c : Char} (hc : isBlank c = true) (text : List Char) :
    tokens (token ++ c :: text) = token :: tokens text := by
  rw [tokens, foldr_append_of_not_blank h.isBlank_eq_false, foldr_cons_of_isBlank hc, List.append_nil]
  exact if_neg fun hempty => h.ne_nil (List.isEmpty_iff.1 hempty)

/-- Tokens with a space between any two and a line end after the last are split. -/
theorem tokens_intercalate {line : List (List Char)} (h : ∀ token ∈ line, IsToken token) (text : List Char) :
    tokens ([' '].intercalate line ++ '\n' :: text) = line ++ tokens text := by
  induction line with
  | nil => exact tokens_cons_of_isBlank rfl text
  | cons token rest ih =>
    have htoken := h token List.mem_cons_self
    have hrest := ih fun t ht => h t (List.mem_cons_of_mem token ht)
    -- What follows the token is the line end if it is the last one, and a space otherwise.
    cases rest with
    | nil =>
      rw [List.intercalate_singleton]
      exact htoken.tokens_append rfl text
    | cons next rest =>
      rw [List.intercalate_cons_cons, List.append_assoc, List.append_assoc]
      exact (htoken.tokens_append (c := ' ') rfl _).trans (congrArg (token :: ·) hrest)

end Text

/-- The characters of written weights: digits, a point and a minus sign. -/
def IsNumeralChar (c : Char) : Prop := c.isDigit = true ∨ c = '.' ∨ c = '-'

/-- The code of a digit. -/
theorem toNat_of_isDigit {c : Char} (h : c.isDigit = true) : 48 ≤ c.toNat ∧ c.toNat ≤ 57 := by
  simpa [Char.isDigit, UInt32.le_iff_toNat_le] using h

/-- No character of a weight is white space. -/
theorem IsNumeralChar.isBlank_eq_false {c : Char} (h : IsNumeralChar c) : isBlank c = false := by
  rcases h with h | rfl | rfl
  · have := toNat_of_isDigit h
    simp only [isBlank, Bool.or_eq_false_iff, Bool.and_eq_false_iff, decide_eq_false_iff_not, beq_eq_false_iff_ne]
    omega
  · rfl
  · rfl

/-- A character of a weight is no capital letter. -/
theorem IsNumeralChar.toLower_eq {c : Char} (h : IsNumeralChar c) : c.toLower = c := by
  rcases h with h | rfl | rfl
  · have hdigit := toNat_of_isDigit h
    refine dif_neg fun ⟨hupper, _⟩ => ?_
    have : 65 ≤ c.toNat := hupper
    omega
  · rfl
  · rfl

/-- Digits that are written with a point are characters of weights. -/
theorem isNumeralChar_of_mem_positional {digits : List Char} (hdigits : ∀ c ∈ digits, c.isDigit = true) {point : ℤ} {c : Char}
    (h : c ∈ positional false digits point) : IsNumeralChar c := by
  unfold positional at h
  split at h
  · rcases List.mem_cons.1 h with rfl | h
    · exact Or.inl rfl
    rcases List.mem_cons.1 h with rfl | h
    · exact Or.inr (Or.inl rfl)
    exact Or.inl ((List.mem_append.1 h).elim isDigit_of_mem_zeros (hdigits c))
  split at h
  · rcases List.mem_append.1 h with h | h
    · exact Or.inl (hdigits c (List.mem_of_mem_take h))
    rcases List.mem_cons.1 h with rfl | h
    · exact Or.inr (Or.inl rfl)
    · exact Or.inl (hdigits c (List.mem_of_mem_drop h))
  · rw [if_neg Bool.false_ne_true, List.append_nil] at h
    exact Or.inl ((List.mem_append.1 h).elim (hdigits c) isDigit_of_mem_zeros)

/-- A written weight consists of characters of weights. -/
theorem isNumeralChar_of_mem_chars {x : Float} (h : x.isFinite = true) {c : Char} (hc : c ∈ plain.chars x) : IsNumeralChar c := by
  rw [chars_of_isFinite h] at hc
  rcases List.mem_append.1 hc with hc | hc
  · unfold signChars at hc
    split at hc
    · exact Or.inr (Or.inr (List.mem_singleton.1 hc))
    · exact absurd hc List.not_mem_nil
  · rw [Layout.decimal] at hc
    split at hc
    · exact isNumeralChar_of_mem_positional (fun c hc => isDigit_of_mem_zeros (k := 1) hc) hc
    · exact isNumeralChar_of_mem_positional (fun c hc => isDigit_of_mem_significantDigits hc) hc

/-- No written weight is a word for a forbidden edge. -/
theorem not_forbiddenMark {x : Float} (h : x.isFinite = true) : (plain.chars x).map Char.toLower ∉ Weights.forbiddenMarks := by
  have hsame : (plain.chars x).map Char.toLower = plain.chars x := by
    conv_rhs => rw [← List.map_id (plain.chars x)]
    exact List.map_congr_left fun c hc => (isNumeralChar_of_mem_chars h hc).toLower_eq
  have hletter : ∀ mark ∈ Weights.forbiddenMarks, 'x' ∈ mark ∨ 'i' ∈ mark := by decide
  rw [hsame]
  intro hmark
  rcases hletter _ hmark with hx | hi
  · exact absurd (isNumeralChar_of_mem_chars h hx) (by unfold IsNumeralChar; decide)
  · exact absurd (isNumeralChar_of_mem_chars h hi) (by unfold IsNumeralChar; decide)

namespace Weights

/-- An entry that is written is read as itself. -/
theorem readEntry_entryText {entry : Option Float} (h : ∀ x ∈ entry, x.isFinite = true) :
    readEntry (entryText entry) = .ok entry := by
  cases entry with
  | none => rfl
  | some x =>
    have hfinite := h x rfl
    rw [entryText, readEntry, if_neg (not_forbiddenMark hfinite), read?_chars hfinite]
    exact if_pos hfinite

/-- A written entry is a token. -/
theorem isToken_entryText {entry : Option Float} (h : ∀ x ∈ entry, x.isFinite = true) : IsToken (entryText entry) := by
  cases entry with
  | none =>
    refine ⟨List.cons_ne_nil _ _, ?_⟩
    simp [entryText, isBlank]
  | some x =>
    have hfinite := h x rfl
    refine ⟨fun hnil => ?_, fun c hc => (isNumeralChar_of_mem_chars hfinite hc).isBlank_eq_false⟩
    have hread := read?_chars hfinite
    rw [show plain.chars x = [] from hnil, show read? [] = none from rfl, Option.map_none] at hread
    cases hread

/-- The rows of a matrix that are written are split into their entries. -/
theorem tokens_flatMap_rowText {rows : List (List (Option Float))}
    (h : ∀ row ∈ rows, ∀ entry ∈ row, ∀ x ∈ entry, x.isFinite = true) :
    tokens (rows.flatMap rowText) = rows.flatten.map entryText := by
  induction rows with
  | nil => rfl
  | cons row rows ih =>
    have hrow : ∀ token ∈ row.map entryText, IsToken token := by
      intro token htoken
      obtain ⟨entry, hentry, rfl⟩ := List.mem_map.1 htoken
      exact isToken_entryText (h row List.mem_cons_self entry hentry)
    rw [List.flatMap_cons, rowText, List.append_assoc, List.singleton_append, tokens_intercalate hrow,
      ih fun row' hrow' => h row' (List.mem_cons_of_mem row hrow'), List.flatten_cons, List.map_append]

/-- The rows of a matrix, one after another, are its entries. -/
theorem flatten_rows (w : Weights Float) : w.rows.flatten = w.entries.toList := by
  rw [toList_eq_map_get, ← List.ofFn_eq_map, List.ofFn_mul, rows, ← List.ofFn_eq_map]
  congr 2
  funext i
  exact List.ofFn_eq_map.symm

/-- A dimension that is written is read as itself. -/
theorem wordNumeral?_toDigits {n : ℕ} (h : n < wordLimit) : wordNumeral? (Nat.toDigits 10 n) = some n := by
  have hdigits : ∀ c ∈ Nat.toDigits 10 n, c.isDigit = true := fun c hc =>
    Nat.isDigit_of_mem_toDigits (by decide) (by decide) hc
  have hne : (Nat.toDigits 10 n).isEmpty = false := by
    rw [List.isEmpty_eq_false_iff]
    exact List.ne_nil_of_length_pos Nat.length_toDigits_pos
  rw [wordNumeral?]
  · simp only [hne, List.all_eq_true.2 hdigits, Nat.ofDigitChars_ten_toDigits, h]
    rfl
  · intro rest heq
    exact absurd (hdigits '+' (heq ▸ List.mem_cons_self)) (by decide)

/-- The tokens of a matrix are read as the matrix. -/
theorem ofTokens_tokens (w : Weights Float) (hfinite : ∀ entry ∈ w.entries.toList, ∀ x ∈ entry, x.isFinite = true)
    (hsize : w.n * w.n < wordLimit) : ofTokens (Nat.toDigits 10 w.n :: w.entries.toList.map entryText) = .ok w := by
  have hn : w.n < wordLimit := (Nat.le_mul_self w.n).trans_lt hsize
  refine ofTokens_of_spells (spells_cons_iff.2 ⟨wordNumeral?_toDigits hn, hsize, ?_⟩)
  rw [List.forall₂_map_left_iff, List.forall₂_same]
  exact fun entry hentry => readEntry_eq_ok_iff.1 (readEntry_entryText (hfinite entry hentry))

/-- A matrix with finite weights is read back from its text as it is: with the same forbidden edges and the same weights, bit for
bit. The places of its entries are words of 64 bits. -/
theorem ofText_text (w : Weights Float) (hfinite : w.IsFinite) (hsize : w.n * w.n < wordLimit) : ofText w.text = .ok w := by
  have hentries : ∀ entry ∈ w.entries.toList, ∀ x ∈ entry, x.isFinite = true := fun entry hentry x hx =>
    hfinite x (List.mem_filterMap.2 ⟨entry, hentry, hx⟩)
  have hrows : ∀ row ∈ w.rows, ∀ entry ∈ row, ∀ x ∈ entry, x.isFinite = true := fun row hrow entry hentry =>
    hentries entry (flatten_rows w ▸ List.mem_flatten.2 ⟨row, hrow, hentry⟩)
  have hdimension : IsToken (Nat.toDigits 10 w.n) :=
    ⟨List.ne_nil_of_length_pos Nat.length_toDigits_pos, fun c hc =>
      IsNumeralChar.isBlank_eq_false (Or.inl (Nat.isDigit_of_mem_toDigits (by decide) (by decide) hc))⟩
  have htokens : Text.tokens w.text.toList = Nat.toDigits 10 w.n :: w.entries.toList.map entryText := by
    rw [text, String.toList_ofList, hdimension.tokens_append rfl, tokens_flatMap_rowText hrows, flatten_rows]
  rw [ofText, htokens, ofTokens_tokens w hentries hsize]
  rfl

/-- A matrix with a negative zero, a forbidden edge, a tenth and the least positive number is read back. -/
theorem ofText_text_negative_zero :
    let w : Weights Float := ⟨2, #v[some (-0), none, some 0.1, some (Float.ofBits 1)]⟩
    w.IsFinite ∧ w.n * w.n < wordLimit ∧ ofText w.text = .ok w := by
  intro w
  have hfinite : w.IsFinite := by
    unfold IsFinite
    decide +kernel
  exact ⟨hfinite, by decide, ofText_text w hfinite (by decide)⟩

example : (⟨2, #v[some (-0), none, some 0.1, some 12]⟩ : Weights Float).text = "2\n-0 -inf\n0.1 12\n" := by decide +kernel

end Weights

end PerfectMatching
