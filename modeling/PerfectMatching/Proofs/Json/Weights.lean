import PerfectMatching.Proofs.Json.Documents
import PerfectMatching.Proofs.Numerals

/-!
# Weights in JSON

A finite weight is written as a JSON number that stands for its shortest decimal (`Json.Number.exists_writes_chars`), and so it is read
as a number of the same value (`Json.Number.exists_value?_chars`). A weight that is not finite is written as null
(`Json.chars_of_not_isFinite`).
-/

namespace PerfectMatching

open Layout Binary64

/-! ## Digits without leading zeros -/

/-- Digits, the first of which is not zero. -/
structure IsLeading (digits : List Char) : Prop where
  isDigits : Json.Number.IsDigits digits
  head : digits.head? ≠ some '0'

/-- A whole number other than zero is written without leading zeros. -/
theorem head_toDigits {m : ℕ} (hm : m ≠ 0) : (Nat.toDigits 10 m).head? ≠ some '0' := by
  induction m using Nat.strongRecOn with
  | ind m ih =>
    rw [Nat.toDigits_eq_if (by decide)]
    split
    · rw [List.head?_cons, ne_eq, Option.some_inj, Nat.digitChar_eq_zero]
      exact hm
    · rw [List.head?_append_of_ne_nil _ Nat.toDigits_ne_nil]
      exact ih (m / 10) (by omega) (by omega)

/-- The digits of a whole number are digits. -/
theorem isDigits_toDigits (m : ℕ) : Json.Number.IsDigits (Nat.toDigits 10 m) :=
  ⟨Nat.toDigits_ne_nil, fun _ hc => Nat.isDigit_of_mem_toDigits (by decide) (by decide) hc⟩

/-- The significant digits of a whole number other than zero have no leading zeros. -/
theorem isLeading_significantDigits {m : ℕ} (hm : m ≠ 0) : IsLeading (significantDigits m) := by
  have hne := significantDigits_ne_nil hm
  refine ⟨⟨hne, fun c hc => isDigit_of_mem_significantDigits hc⟩, ?_⟩
  obtain ⟨k, hk⟩ := toDigits_eq_significantDigits m
  have hhead := head_toDigits hm
  rwa [hk, List.head?_append_of_ne_nil _ hne] at hhead

namespace Json.Number

/-- Zeros are digits. -/
theorem isDigits_zeros {k : ℕ} (hk : 0 < k) : IsDigits (List.replicate k '0') :=
  ⟨by rwa [ne_eq, List.replicate_eq_nil_iff, ← ne_eq, ← Nat.pos_iff_ne_zero], fun _ hc => isDigit_of_mem_zeros hc⟩

/-- Digits before zeros are digits. -/
theorem IsDigits.append_zeros {digits : List Char} (h : IsDigits digits) (k : ℕ) : IsDigits (digits ++ List.replicate k '0') :=
  ⟨List.append_ne_nil_of_left_ne_nil h.1 _, fun c hc => (List.mem_append.1 hc).elim (h.2 c) isDigit_of_mem_zeros⟩

/-- Digits after zeros are digits. -/
theorem IsDigits.zeros_append {digits : List Char} (h : IsDigits digits) (k : ℕ) : IsDigits (List.replicate k '0' ++ digits) :=
  ⟨List.append_ne_nil_of_right_ne_nil _ h.1, fun c hc => (List.mem_append.1 hc).elim isDigit_of_mem_zeros (h.2 c)⟩

/-! ## Writing -/

/-- A number by the rules that is written as this text and stands for this magnitude. -/
structure Writes (negative : Bool) (text : List Char) (q : ℚ) (x : Number) : Prop where
  sign : x.negative = negative
  chars_eq : x.chars = signChars negative ++ text
  wellFormed : x.WellFormed
  value_eq : x.numeral.magnitude.value = q

section Writes

variable {digits : List Char}

/-- Digits of which the first part stands before the point. -/
theorem writes_point (negative : Bool) {whole fraction : List Char} (hwhole : IsDigits whole)
    (hhead : whole.head? = some '0' → whole = ['0']) (hfraction : IsDigits fraction) :
    Writes negative (whole ++ '.' :: fraction) (Nat.ofDigitChars 10 (whole ++ fraction) 0 * 10 ^ (-fraction.length : ℤ))
      ⟨negative, whole, some fraction, none⟩ where
  sign := rfl
  chars_eq := by simp only [Number.chars, fractionChars, powerChars, List.append_nil, signChars]
  wellFormed := ⟨hwhole, hhead, fun digits h => Option.some_inj.1 h ▸ hfraction, nofun⟩
  value_eq := by simp only [numeral, Decimal.value, exponent, Option.getD_some, zero_sub]

/-- Digits with the point before them. -/
theorem exists_writes_before (negative : Bool) (h : IsLeading digits) (k : ℕ) :
    ∃ x, Writes negative (positional true digits (-k)) (Nat.ofDigitChars 10 digits 0 * 10 ^ (-k - digits.length : ℤ)) x := by
  have hnumber : Nat.ofDigitChars 10 (['0'] ++ (List.replicate k '0' ++ digits)) 0 = Nat.ofDigitChars 10 digits 0 :=
    ofDigitChars_zeros_append (k + 1) digits
  have hplaces : (-k - digits.length : ℤ) = -((List.replicate k '0' ++ digits).length : ℕ) := by
    rw [List.length_append, List.length_replicate]
    push_cast
    ring
  rw [positional_of_neg, hplaces, ← hnumber]
  exact ⟨_, writes_point negative (isDigits_zeros Nat.one_pos) (fun _ => rfl) (h.isDigits.zeros_append k)⟩

/-- Digits with the point among them. -/
theorem exists_writes_among (negative : Bool) (h : IsLeading digits) {k : ℕ} (hpos : 0 < k) (hlt : k < digits.length) :
    ∃ x, Writes negative (positional true digits k) (Nat.ofDigitChars 10 digits 0 * 10 ^ (k - digits.length : ℤ)) x := by
  have htake : IsDigits (digits.take k) :=
    ⟨List.length_pos_iff.1 (by rw [List.length_take]; omega), fun c hc => h.isDigits.2 c (List.mem_of_mem_take hc)⟩
  have hdrop : IsDigits (digits.drop k) :=
    ⟨List.length_pos_iff.1 (by rw [List.length_drop]; omega), fun c hc => h.isDigits.2 c (List.mem_of_mem_drop hc)⟩
  have hhead : (digits.take k).head? ≠ some '0' := by
    rw [List.head?_take, if_neg hpos.ne']
    exact h.head
  have hplaces : (k - digits.length : ℤ) = -((digits.drop k).length : ℕ) := by
    rw [List.length_drop]
    push_cast [hlt.le]
    ring
  have hwrites := writes_point negative htake (fun hzero => absurd hzero hhead) hdrop
  rw [List.take_append_drop] at hwrites
  rw [positional_of_lt true hpos hlt, hplaces]
  exact ⟨_, hwrites⟩

/-- Digits with zeros and the point after them. -/
theorem exists_writes_after (negative : Bool) (h : IsLeading digits) {k : ℕ} (hle : digits.length ≤ k) :
    ∃ x, Writes negative (positional true digits k) (Nat.ofDigitChars 10 digits 0 * 10 ^ (k - digits.length : ℤ)) x := by
  have hpos : 0 < k := (List.length_pos_iff.2 h.isDigits.1).trans_le hle
  have hhead : (digits ++ List.replicate (k - digits.length) '0').head? ≠ some '0' := by
    rw [List.head?_append_of_ne_nil _ h.isDigits.1]
    exact h.head
  have hzeros : digits ++ List.replicate (k - digits.length) '0' ++ ['0'] = digits ++ List.replicate (k - digits.length + 1) '0' := by
    rw [List.append_assoc, List.replicate_succ']
  have hvalue : (Nat.ofDigitChars 10 digits 0 : ℚ) * 10 ^ (k - digits.length : ℤ) =
      Nat.ofDigitChars 10 (digits ++ List.replicate (k - digits.length) '0' ++ ['0']) 0 * 10 ^ (-['0'].length : ℤ) := by
    rw [hzeros, ofDigitChars_append_zeros, ← Nat.cast_sub hle, zpow_natCast, List.length_singleton, Nat.cast_one, zpow_neg_one]
    push_cast
    ring
  rw [positional_of_ge true hpos hle, if_pos rfl, hvalue]
  exact ⟨_, writes_point negative (h.isDigits.append_zeros _) (fun hzero => absurd hzero hhead) (isDigits_zeros Nat.one_pos)⟩

/-- Digits with the point before, among or after them. -/
theorem exists_writes_positional (negative : Bool) (h : IsLeading digits) (point : ℤ) :
    ∃ x, Writes negative (positional true digits point) (Nat.ofDigitChars 10 digits 0 * 10 ^ (point - digits.length)) x := by
  rcases le_or_gt point 0 with hlow | hpos
  · obtain ⟨k, rfl⟩ : ∃ k : ℕ, point = -k := ⟨point.natAbs, by omega⟩
    exact exists_writes_before negative h k
  obtain ⟨k, rfl⟩ := Int.eq_ofNat_of_zero_le hpos.le
  rcases lt_or_ge k digits.length with hlt | hge
  · exact exists_writes_among negative h (by omega) hlt
  · exact exists_writes_after negative h hge

/-- A power of ten with its sign. -/
def signedPower (power : ℤ) : Bool × List Char := (decide (power < 0), Nat.toDigits 10 power.natAbs)

/-- A power of ten stands for itself. -/
theorem exponent_signedPower (negative : Bool) (whole : List Char) (fraction : Option (List Char)) (power : ℤ) :
    exponent ⟨negative, whole, fraction, some (signedPower power)⟩ = power := by
  simp only [exponent, signedPower, Nat.ofDigitChars_ten_toDigits, decide_eq_true_eq]
  split <;> omega

/-- Digits with the point after the first of them and a power of ten. -/
theorem exists_writes_scientific (negative : Bool) (h : IsLeading digits) (power : ℤ) :
    ∃ x, Writes negative (scientific digits power) (Nat.ofDigitChars 10 digits 0 * 10 ^ (power + 1 - digits.length)) x := by
  obtain ⟨d, rest, rfl⟩ := List.exists_cons_of_ne_nil h.isDigits.1
  have hd : IsDigits [d] := ⟨List.cons_ne_nil _ _, fun c hc => h.isDigits.2 c (List.mem_singleton.1 hc ▸ List.mem_cons_self)⟩
  have hhead : [d].head? = some '0' → [d] = ['0'] := fun hzero => absurd hzero h.head
  have hpower : ∀ p ∈ some (signedPower power), IsDigits p.2 := fun p hp => Option.some_inj.1 hp ▸ isDigits_toDigits _
  cases rest with
  | nil =>
    refine ⟨⟨negative, [d], none, some (signedPower power)⟩, rfl, ?_, ⟨hd, hhead, nofun, hpower⟩, ?_⟩
    · simp [Number.chars, fractionChars, powerChars, signedPower, scientific, signChars]
    · rw [numeral, Decimal.value, exponent_signedPower]
      simp
  | cons c rest =>
    have hrest : ∀ digits ∈ some (c :: rest), IsDigits digits := fun digits hdigits => Option.some_inj.1 hdigits ▸
      ⟨List.cons_ne_nil _ _, fun c' hc => h.isDigits.2 c' (List.mem_cons_of_mem d hc)⟩
    refine ⟨⟨negative, [d], some (c :: rest), some (signedPower power)⟩, rfl, ?_, ⟨hd, hhead, hrest, hpower⟩, ?_⟩
    · simp [Number.chars, fractionChars, powerChars, signedPower, scientific, signChars]
    · rw [numeral, Decimal.value, exponent_signedPower]
      simp

/-- A decimal is written as a number that stands for it. -/
theorem exists_writes_decimal (negative : Bool) (d : Decimal) : ∃ x, Writes negative (json.decimal d) d.value x := by
  rw [Layout.decimal]
  by_cases hzero : d.digits = 0
  · have hdigits : IsDigits ['0'] := isDigits_zeros Nat.one_pos
    have hwrites := writes_point negative hdigits (fun _ => rfl) hdigits
    rw [show Nat.ofDigitChars 10 (['0'] ++ ['0']) 0 = 0 from rfl, Nat.cast_zero, zero_mul] at hwrites
    rw [if_pos hzero, Decimal.value, hzero, Nat.cast_zero, zero_mul]
    exact ⟨_, hwrites⟩
  · have hleading := isLeading_significantDigits hzero
    rw [if_neg hzero, value_eq_significantDigits]
    dsimp only
    split
    · exact exists_writes_positional negative hleading _
    · exact exists_writes_scientific negative hleading _

end Writes

/-- A finite weight is written as a number that stands for its shortest decimal. -/
theorem exists_writes_chars {w : Float} (h : w.isFinite = true) :
    ∃ x, Writes (w.toBits >>> 63 == 1) (json.decimal (Decimal.shortest .toEven w)) (Decimal.shortest .toEven w).value x ∧
      x.chars = json.chars w := by
  obtain ⟨x, hx⟩ := exists_writes_decimal (w.toBits >>> 63 == 1) (Decimal.shortest .toEven w)
  refine ⟨x, hx, hx.chars_eq.trans ?_⟩
  rw [Layout.chars, isNaN_of_isFinite h, isInf_of_isFinite h]
  rfl

/-! ## Reading -/

/-- A finite weight is written as a number by the rules that is read as a finite number of the same value. -/
theorem exists_value?_chars {w : Float} (h : w.isFinite = true) :
    ∃ x : Number, x.WellFormed ∧ x.chars = json.chars w ∧ ∃ y, x.value? = some y ∧ y.isFinite = true ∧ value y = value w := by
  obtain ⟨x, hx, hchars⟩ := exists_writes_chars h
  refine ⟨x, hx.wellFormed, hchars, x.numeral.toFloat, ?_⟩
  obtain ⟨hfinite, hvalue⟩ := isFinite_of_beq (toFloat_beq_abs h hx.value_eq) (value_abs h).1
  rw [(value_abs h).2] at hvalue
  have hsigned : x.numeral.toFloat.isFinite = true ∧ value x.numeral.toFloat = value w := by
    rw [value_eq_signed_abs h, Numeral.toFloat, show x.numeral.negative = (w.toBits >>> 63 == 1) from hx.sign]
    split
    · rw [isFinite_opposite, value_neg, hvalue]
      exact ⟨hfinite, rfl⟩
    · exact ⟨hfinite, hvalue⟩
  exact ⟨if_pos hsigned.1, hsigned⟩

end Number

/-- A weight that is not finite is written as null. -/
theorem chars_of_not_isFinite {x : Float} (h : x.isFinite = false) : json.chars x = "null".toList := by
  unfold Layout.chars
  split
  · rfl
  split
  · split <;> rfl
  · rename_i hnan hinf
    rcases infinity_or_isFinite (Bool.eq_false_iff.2 hnan) with ⟨s, hs⟩ | hfin
    · refine absurd (?_ : (unpacked x).isInf = true) hinf
      rw [hs]
      rfl
    · exact Bool.noConfusion (h.symm.trans hfin)

end Json

end PerfectMatching
