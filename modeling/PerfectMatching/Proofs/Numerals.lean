import PerfectMatching.Decimal.Layout
import PerfectMatching.Proofs.Binary64.Decimals

/-!
# Numerals that are written and read

A weight is written as a sign, digits and a point, without a power of ten, and what is read from it stands for the same rational
number as the decimal that is written (`read?_decimal`). So a finite binary64 number is read as itself, bit for bit
(`read?_chars`).
-/

namespace PerfectMatching

open Numeral Layout

/-! ## Reading -/

/-- The characters that precede a number with this sign. -/
def signChars (negative : Bool) : List Char := if negative then ['-'] else []

/-- A sign before a digit is split off. -/
theorem splitSign_signChars (negative : Bool) {c : Char} (hc : c.isDigit = true) (text : List Char) :
    splitSign (signChars negative ++ c :: text) = (negative, c :: text) := by
  cases negative with
  | true => rfl
  | false =>
    change splitSign (c :: text) = _
    unfold splitSign
    split
    · rename_i heq
      obtain ⟨rfl, _⟩ := List.cons.inj heq
      exact absurd hc (by decide)
    · rename_i heq
      obtain ⟨rfl, _⟩ := List.cons.inj heq
      exact absurd hc (by decide)
    · rfl

variable {whole fraction tail digits : List Char}

/-- A numeral is a sign, digits, and what follows them: either nothing or a point and more digits. -/
theorem read?_eq (negative : Bool) (hne : whole ≠ []) (hwhole : ∀ c ∈ whole, c.isDigit = true)
    (htail : tail.takeWhile Char.isDigit = []) (hsplit : splitFraction tail = (fraction, [])) :
    read? (signChars negative ++ (whole ++ tail)) =
      some ⟨negative, ⟨Nat.ofDigitChars 10 (whole ++ fraction) 0, -fraction.length⟩⟩ := by
  obtain ⟨c, rest, rfl⟩ := List.exists_cons_of_ne_nil hne
  have hsign : splitSign (signChars negative ++ (c :: rest ++ tail)) = (negative, c :: rest ++ tail) :=
    splitSign_signChars negative (hwhole c List.mem_cons_self) (rest ++ tail)
  have hdrop : tail.dropWhile Char.isDigit = tail := by
    conv_rhs => rw [← List.takeWhile_append_dropWhile (p := Char.isDigit) (l := tail), htail, List.nil_append]
  rw [read?, hsign]
  simp only [List.takeWhile_append_of_pos hwhole, List.dropWhile_append_of_pos hwhole, htail, hdrop, hsplit, List.append_nil]
  rw [List.isEmpty_cons, Bool.false_and, if_neg Bool.false_ne_true, exponent?, Option.map_some, zero_sub]

/-- Digits without a point are a whole number. -/
theorem read?_whole (negative : Bool) (hne : whole ≠ []) (hwhole : ∀ c ∈ whole, c.isDigit = true) :
    read? (signChars negative ++ whole) = some ⟨negative, ⟨Nat.ofDigitChars 10 whole 0, 0⟩⟩ := by
  have h : read? (signChars negative ++ (whole ++ [])) = some ⟨negative, ⟨Nat.ofDigitChars 10 (whole ++ []) 0, 0⟩⟩ :=
    read?_eq negative hne hwhole rfl rfl
  rwa [List.append_nil] at h

/-- Each digit after the point counts a tenth of the one before it. -/
theorem read?_point (negative : Bool) (hne : whole ≠ []) (hwhole : ∀ c ∈ whole, c.isDigit = true)
    (hfraction : ∀ c ∈ fraction, c.isDigit = true) :
    read? (signChars negative ++ (whole ++ '.' :: fraction)) =
      some ⟨negative, ⟨Nat.ofDigitChars 10 (whole ++ fraction) 0, -fraction.length⟩⟩ := by
  refine read?_eq negative hne hwhole rfl ?_
  have htake : (fraction ++ []).takeWhile Char.isDigit = fraction ++ [] := List.takeWhile_append_of_pos hfraction
  have hdrop : (fraction ++ []).dropWhile Char.isDigit = [] := List.dropWhile_append_of_pos hfraction
  rw [List.append_nil] at htake hdrop
  rw [splitFraction, htake, hdrop]

/-! ## Writing -/

/-- Digits after zeros are the same number. -/
theorem ofDigitChars_zeros_append (k : ℕ) (digits : List Char) :
    Nat.ofDigitChars 10 (List.replicate k '0' ++ digits) 0 = Nat.ofDigitChars 10 digits 0 := by
  rw [Nat.ofDigitChars_append, Nat.ofDigitChars_replicate_zero, Nat.mul_zero]

/-- Digits before zeros are as many times ten. -/
theorem ofDigitChars_append_zeros (digits : List Char) (k : ℕ) :
    Nat.ofDigitChars 10 (digits ++ List.replicate k '0') 0 = 10 ^ k * Nat.ofDigitChars 10 digits 0 := by
  rw [Nat.ofDigitChars_append, Nat.ofDigitChars_replicate_zero]

/-- Zeros are digits. -/
theorem isDigit_of_mem_zeros {k : ℕ} {c : Char} (h : c ∈ List.replicate k '0') : c.isDigit = true := by
  rw [List.eq_of_mem_replicate h]
  rfl

/-- A point before all digits. -/
theorem positional_of_neg (wholePoint : Bool) (digits : List Char) (k : ℕ) :
    positional wholePoint digits (-k) = ['0'] ++ '.' :: (List.replicate k '0' ++ digits) := by
  rw [positional, if_pos (by omega), neg_neg, Int.toNat_natCast]
  rfl

/-- A point among the digits. -/
theorem positional_of_lt (wholePoint : Bool) {k : ℕ} (hpos : 0 < k) (h : k < digits.length) :
    positional wholePoint digits k = digits.take k ++ '.' :: digits.drop k := by
  rw [positional, if_neg (by omega), if_pos (by omega), Int.toNat_natCast]

/-- A point after all digits, or none. -/
theorem positional_of_ge (wholePoint : Bool) {k : ℕ} (hpos : 0 < k) (h : digits.length ≤ k) :
    positional wholePoint digits k =
      digits ++ List.replicate (k - digits.length) '0' ++ if wholePoint then ['.', '0'] else [] := by
  rw [positional, if_neg (by omega), if_neg (by omega), Int.toNat_natCast]

/-- Digits with a point before them, among them or after them are read as the number they stand for. -/
theorem read?_positional (negative : Bool) (hne : digits ≠ []) (hdigits : ∀ c ∈ digits, c.isDigit = true) (point : ℤ) :
    ∃ d : Decimal, read? (signChars negative ++ positional false digits point) = some ⟨negative, d⟩ ∧
      d.value = Nat.ofDigitChars 10 digits 0 * 10 ^ (point - digits.length) := by
  have hlength := List.length_pos_iff.2 hne
  rcases le_or_gt point 0 with hlow | hpos
  · obtain ⟨k, rfl⟩ : ∃ k : ℕ, point = -k := ⟨point.natAbs, by omega⟩
    have hall : ∀ c ∈ List.replicate k '0' ++ digits, c.isDigit = true := fun c hc =>
      (List.mem_append.1 hc).elim isDigit_of_mem_zeros (hdigits c)
    rw [positional_of_neg]
    refine ⟨_, read?_point negative (List.cons_ne_nil _ _) (fun c hc => isDigit_of_mem_zeros (k := 1) hc) hall, ?_⟩
    have hnumber : Nat.ofDigitChars 10 (['0'] ++ (List.replicate k '0' ++ digits)) 0 = Nat.ofDigitChars 10 digits 0 :=
      ofDigitChars_zeros_append (k + 1) digits
    rw [Decimal.value, hnumber, List.length_append, List.length_replicate]
    congr 2
    push_cast
    ring
  obtain ⟨k, rfl⟩ := Int.eq_ofNat_of_zero_le hpos.le
  rcases lt_or_ge k digits.length with hlt | hge
  · have htake : digits.take k ≠ [] := by
      rw [← List.length_pos_iff, List.length_take]
      omega
    rw [positional_of_lt false (by omega) hlt]
    refine ⟨_, read?_point negative htake (fun c hc => hdigits c (List.mem_of_mem_take hc))
      (fun c hc => hdigits c (List.mem_of_mem_drop hc)), ?_⟩
    rw [Decimal.value, List.take_append_drop, List.length_drop]
    congr 2
    push_cast [hlt.le]
    ring
  · have hall : ∀ c ∈ digits ++ List.replicate (k - digits.length) '0', c.isDigit = true := fun c hc =>
      (List.mem_append.1 hc).elim (hdigits c) isDigit_of_mem_zeros
    rw [positional_of_ge false (by omega) hge, if_neg Bool.false_ne_true, List.append_nil]
    refine ⟨_, read?_whole negative (List.append_ne_nil_of_left_ne_nil hne _) hall, ?_⟩
    rw [Decimal.value, ofDigitChars_append_zeros, ← Nat.cast_sub hge, zpow_natCast]
    push_cast
    ring

/-- The digits of a whole number are its significant digits, followed by zeros. -/
theorem toDigits_eq_significantDigits (m : ℕ) : ∃ k, Nat.toDigits 10 m = significantDigits m ++ List.replicate k '0' := by
  have hzeros : ∀ c ∈ (Nat.toDigits 10 m).reverse.takeWhile (· == '0'), c = '0' := fun c hc =>
    beq_iff_eq.1 (List.all_eq_true.1 List.all_takeWhile c hc)
  refine ⟨((Nat.toDigits 10 m).reverse.takeWhile (· == '0')).length, ?_⟩
  rw [significantDigits, ← List.reverse_replicate, ← List.eq_replicate_of_mem hzeros, ← List.reverse_append,
    List.takeWhile_append_dropWhile, List.reverse_reverse]

/-- Significant digits are digits. -/
theorem isDigit_of_mem_significantDigits {m : ℕ} {c : Char} (h : c ∈ significantDigits m) : c.isDigit = true := by
  obtain ⟨k, hk⟩ := toDigits_eq_significantDigits m
  exact Nat.isDigit_of_mem_toDigits (by decide) (by decide) (hk ▸ List.mem_append_left _ h)

/-- A whole number is that of its significant digits, times ten for every zero after them. -/
theorem ofDigitChars_significantDigits (m : ℕ) : ∃ k, (Nat.toDigits 10 m).length = (significantDigits m).length + k ∧
    m = 10 ^ k * Nat.ofDigitChars 10 (significantDigits m) 0 := by
  obtain ⟨k, hk⟩ := toDigits_eq_significantDigits m
  refine ⟨k, ?_, ?_⟩
  · rw [hk, List.length_append, List.length_replicate]
  · rw [← ofDigitChars_append_zeros, ← hk, Nat.ofDigitChars_ten_toDigits]

/-- A whole number other than zero has significant digits. -/
theorem significantDigits_ne_nil {m : ℕ} (hm : m ≠ 0) : significantDigits m ≠ [] := by
  intro hnil
  obtain ⟨k, _, hnumber⟩ := ofDigitChars_significantDigits m
  rw [hnil, Nat.ofDigitChars_nil, Nat.mul_zero] at hnumber
  exact hm hnumber

/-- A decimal stands for its significant digits, with the point after the first of them. -/
theorem value_eq_significantDigits (d : Decimal) : d.value = Nat.ofDigitChars 10 (significantDigits d.digits) 0 *
    10 ^ (((Nat.toDigits 10 d.digits).length : ℤ) - 1 + d.exponent + 1 - (significantDigits d.digits).length) := by
  obtain ⟨k, hlength, hnumber⟩ := ofDigitChars_significantDigits d.digits
  have hcast : (d.digits : ℚ) = 10 ^ k * Nat.ofDigitChars 10 (significantDigits d.digits) 0 := by exact_mod_cast hnumber
  have hpower : (((significantDigits d.digits).length + k : ℕ) : ℤ) - 1 + d.exponent + 1 - (significantDigits d.digits).length =
      k + d.exponent := by
    push_cast
    ring
  rw [hlength, hpower, zpow_add₀ (by norm_num), zpow_natCast, Decimal.value, hcast]
  ring

/-- A decimal is read as a decimal of the same value; zero is read as it is. -/
theorem read?_decimal (negative : Bool) (d : Decimal) :
    ∃ d' : Decimal, read? (signChars negative ++ plain.decimal d) = some ⟨negative, d'⟩ ∧ d'.value = d.value ∧
      (d.digits = 0 → d' = ⟨0, 0⟩) := by
  rw [Layout.decimal]
  by_cases hzero : d.digits = 0
  · rw [if_pos hzero]
    refine ⟨⟨0, 0⟩, read?_whole negative (List.cons_ne_nil _ _) (fun c hc => isDigit_of_mem_zeros (k := 1) hc), ?_, fun _ => rfl⟩
    rw [Decimal.value, Decimal.value, hzero, Nat.cast_zero, zero_mul, zero_mul]
  · obtain ⟨d', hread, hvalue⟩ := read?_positional negative (significantDigits_ne_nil hzero)
      (fun c hc => isDigit_of_mem_significantDigits hc) ((Nat.toDigits 10 d.digits).length - 1 + d.exponent + 1)
    exact ⟨d', by rw [if_neg hzero]; exact hread, hvalue.trans (value_eq_significantDigits d).symm, fun h => absurd h hzero⟩

/-- A finite number is written as its sign and its shortest decimal. -/
theorem chars_of_isFinite {x : Float} (h : x.isFinite = true) :
    plain.chars x = signChars (x.toBits >>> 63 == 1) ++ plain.decimal (Decimal.shortest .up x) := by
  rw [Layout.chars, Binary64.isNaN_of_isFinite h, Binary64.isInf_of_isFinite h]
  rfl

/-- A finite number is read as itself, bit for bit. -/
theorem read?_chars {x : Float} (h : x.isFinite = true) : (read? (plain.chars x)).map Numeral.toFloat = some x := by
  obtain ⟨d, hread, hvalue, hzero⟩ := read?_decimal (x.toBits >>> 63 == 1) (Decimal.shortest .up x)
  rw [chars_of_isFinite h, hread, Option.map_some]
  exact congrArg some (Binary64.signed_toFloat_eq h hvalue fun hshortest => hzero (by rw [hshortest]))

end PerfectMatching
