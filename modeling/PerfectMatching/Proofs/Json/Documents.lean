import Mathlib.Data.List.Basic
import PerfectMatching.Json.Standard

/-!
# Reading JSON that has been written

A number is written as its sign, its digits, and perhaps a point with digits and a power of ten (`Json.Number.chars`). Written by the rules
(`Json.Number.WellFormed`) it is read as it is (`Json.number?_chars`). Texts of values (`Json.IsValueText`) are handed out as they are from
an array (`Json.itemsIn?_intercalate`) and from an object (`Json.fieldsIn?_object`), whatever stands in them.
-/

namespace PerfectMatching.Json

/-! ## Numbers -/

namespace Number

/-- The digits after a point, with the point. -/
def fractionChars : Option (List Char) → List Char
  | none => []
  | some digits => '.' :: digits

/-- A power of ten with its sign. -/
def powerChars : Option (Bool × List Char) → List Char
  | none => []
  | some (negative, digits) => 'e' :: (if negative then '-' else '+') :: digits

/-- A number as a text. -/
def chars (x : Number) : List Char :=
  (if x.negative then ['-'] else []) ++ (x.whole ++ (fractionChars x.fraction ++ powerChars x.power))

/-- Some digits, at least one. -/
def IsDigits (digits : List Char) : Prop := digits ≠ [] ∧ ∀ c ∈ digits, c.isDigit = true

/-- A number by the rules: digits wherever there may be some, and no zero before other digits. -/
structure WellFormed (x : Number) : Prop where
  whole : IsDigits x.whole
  head : x.whole.head? = some '0' → x.whole = ['0']
  fraction : ∀ digits ∈ x.fraction, IsDigits digits
  power : ∀ p ∈ x.power, IsDigits p.2

end Number

open Number

/-- What follows a value at the end of a text, in an array or in an object. -/
inductive Follows : List Char → Prop where
  | nil : Follows []
  | comma (rest : List Char) : Follows (',' :: rest)
  | bracket (rest : List Char) : Follows (']' :: rest)
  | brace (rest : List Char) : Follows ('\x7d' :: rest)

/-- The digits before something that is no digit. -/
theorem digits?_append {digits rest : List Char} (h : IsDigits digits) (hrest : rest.takeWhile Char.isDigit = []) :
    digits? (digits ++ rest) = some (digits, rest) := by
  have htake : (digits ++ rest).takeWhile Char.isDigit = digits := by
    rw [List.takeWhile_append_of_pos h.2, hrest, List.append_nil]
  have hdrop : (digits ++ rest).dropWhile Char.isDigit = rest := by
    rw [List.dropWhile_append_of_pos h.2]
    cases rest with
    | nil => rfl
    | cons c rest =>
      refine List.dropWhile_cons_of_neg fun hc => ?_
      rw [List.takeWhile_cons_of_pos hc] at hrest
      exact nomatch hrest
  unfold digits?
  rw [htake, hdrop]
  cases digits with
  | nil => exact absurd rfl h.1
  | cons c digits => rfl

/-- What follows a value is no part of a number. -/
theorem Follows.power? {rest : List Char} (h : Follows rest) : Json.power? rest = some (none, rest) := by
  cases h <;> rfl

/-- A power of ten that is written is read. -/
theorem power?_powerChars {power : Option (Bool × List Char)} (h : ∀ p ∈ power, IsDigits p.2) {rest : List Char}
    (hrest : Follows rest) : power? (powerChars power ++ rest) = some (power, rest) := by
  cases power with
  | none => exact hrest.power?
  | some p =>
    obtain ⟨negative, digits⟩ := p
    have hdigits : digits? (digits ++ rest) = some (digits, rest) := digits?_append (h _ rfl) (by cases hrest <;> rfl)
    cases negative <;> simp [powerChars, power?, hdigits]

/-- The text after the digits of a number begins with no digit. -/
theorem takeWhile_powerChars (power : Option (Bool × List Char)) {rest : List Char} (hrest : Follows rest) :
    (powerChars power ++ rest).takeWhile Char.isDigit = [] := by
  cases power with
  | none => cases hrest <;> rfl
  | some p => rfl

/-- Digits after a point that are written are read. -/
theorem fraction?_fractionChars {fraction : Option (List Char)} (h : ∀ digits ∈ fraction, IsDigits digits)
    (power : Option (Bool × List Char)) {rest : List Char} (hrest : Follows rest) :
    fraction? (fractionChars fraction ++ (powerChars power ++ rest)) = some (fraction, powerChars power ++ rest) := by
  cases fraction with
  | none =>
    cases power with
    | none => cases hrest <;> rfl
    | some p => rfl
  | some digits =>
    change (digits? (digits ++ (powerChars power ++ rest))).map _ = _
    rw [digits?_append (h _ rfl) (takeWhile_powerChars power hrest)]
    rfl

/-- The text after the digits before the point begins with no digit. -/
theorem takeWhile_fractionChars (fraction : Option (List Char)) (power : Option (Bool × List Char)) {rest : List Char}
    (hrest : Follows rest) : (fractionChars fraction ++ (powerChars power ++ rest)).takeWhile Char.isDigit = [] := by
  cases fraction with
  | none => exact takeWhile_powerChars power hrest
  | some digits => rfl

/-- A number that is written by the rules is read as it is. -/
theorem number?_chars {x : Number} (h : x.WellFormed) {rest : List Char} (hrest : Follows rest) :
    number? (x.chars ++ rest) = some (x, rest) := by
  obtain ⟨negative, whole, fraction, power⟩ := x
  have hwhole := digits?_append h.whole (takeWhile_fractionChars fraction power hrest)
  have hfraction := fraction?_fractionChars h.fraction power hrest
  have hpower := power?_powerChars h.power hrest
  have hzero : ¬(whole.head? = some '0' ∧ whole ≠ ['0']) := fun hzero => hzero.2 (h.head hzero.1)
  have hsplit : chars ⟨negative, whole, fraction, power⟩ ++ rest =
      (if negative then ['-'] else []) ++ (whole ++ (fractionChars fraction ++ (powerChars power ++ rest))) := by
    simp only [chars, List.append_assoc]
  rw [hsplit]
  cases negative with
  | true =>
    simp only [if_true, List.cons_append, List.nil_append, number?, hwhole, Option.bind_eq_bind, Option.bind_some, hfraction, hpower]
    exact if_neg hzero
  | false =>
    obtain ⟨c, digits, rfl⟩ := List.exists_cons_of_ne_nil h.whole.1
    have hminus : c ≠ '-' := by
      rintro rfl
      exact Bool.noConfusion (h.whole.2 '-' List.mem_cons_self)
    simp only [Bool.false_eq_true, if_false, List.nil_append, List.cons_append] at hwhole ⊢
    unfold number?
    split
    rename_i hsign
    split at hsign
    · rename_i heq
      exact absurd (List.cons.inj heq).1 hminus
    · obtain ⟨rfl, rfl⟩ := Prod.mk.inj hsign
      simp only [hwhole, Option.bind_eq_bind, Option.bind_some, hfraction, hpower]
      exact if_neg hzero

/-- A number begins with a minus or a digit. -/
theorem Number.WellFormed.exists_chars_eq {x : Number} (h : x.WellFormed) :
    ∃ c text, x.chars = c :: text ∧ (c = '-' ∨ c.isDigit = true) := by
  obtain ⟨c, digits, hwhole⟩ := List.exists_cons_of_ne_nil h.whole.1
  rw [chars, hwhole]
  cases x.negative with
  | true => exact ⟨'-', _, rfl, Or.inl rfl⟩
  | false => exact ⟨c, _, rfl, Or.inr (h.whole.2 c (hwhole ▸ List.mem_cons_self))⟩

/-! ## Values -/

/-- What is not white space is not skipped. -/
theorem skipBlanks_cons {c : Char} (h : isBlank c = false) (text : List Char) : skipBlanks (c :: text) = c :: text :=
  List.dropWhile_cons_of_neg (by rw [h]; exact Bool.false_ne_true)

/-- What is neither a minus nor a digit begins no number. -/
theorem ne_of_head {c d : Char} (hc : c = '-' ∨ c.isDigit = true) (hminus : d ≠ '-') (hdigit : d.isDigit = false) : c ≠ d := by
  rintro rfl
  rcases hc with rfl | hc
  · exact hminus rfl
  · exact Bool.noConfusion (hc.symm.trans hdigit)

/-- A number begins with no white space. -/
theorem isBlank_of_head {c : Char} (hc : c = '-' ∨ c.isDigit = true) : isBlank c = false := by
  simp only [isBlank, Bool.or_eq_false_iff, beq_eq_false_iff_ne]
  exact ⟨⟨⟨ne_of_head hc (by decide) rfl, ne_of_head hc (by decide) rfl⟩, ne_of_head hc (by decide) rfl⟩,
    ne_of_head hc (by decide) rfl⟩

/-- Where a value begins with a minus or a digit it is a number. -/
theorem after?_cons {c : Char} (hc : c = '-' ∨ c.isDigit = true) (fuel : ℕ) (text : List Char) :
    after? (fuel + 1) (c :: text) = (number? (c :: text)).map (·.2) := by
  rw [after?.eq_def]
  dsimp only
  split
  case h_7 => rfl
  all_goals
    rename_i heq
    exact absurd (List.cons.inj heq).1 (ne_of_head hc (by decide) rfl)

/-- A text before what follows it. -/
theorem before_append (text rest : List Char) : before (text ++ rest) rest = text := by simp [before]

/-- A text that is read as a value up to its end, and no further. -/
structure IsValueText (text : List Char) : Prop where
  skip : ∀ rest, skipBlanks (text ++ rest) = text ++ rest
  after : ∀ {fuel : ℕ}, 2 * text.length ≤ fuel → ∀ {rest}, Follows rest → after? fuel (text ++ rest) = some rest

/-- The text of a value is not empty, and it does not begin with a closing bracket. -/
theorem IsValueText.exists_cons {text : List Char} (h : IsValueText text) : ∃ c chars, text = c :: chars ∧ c ≠ ']' := by
  have hafter := h.after (Nat.le_succ (2 * text.length)) .nil
  rw [List.append_nil] at hafter
  cases text with
  | nil => exact nomatch hafter
  | cons c chars =>
    refine ⟨c, chars, rfl, ?_⟩
    rintro rfl
    exact nomatch hafter

/-- A number that is written is the text of a value. -/
theorem isValueText_chars {x : Number} (h : x.WellFormed) : IsValueText x.chars := by
  obtain ⟨c, text, hchars, hc⟩ := h.exists_chars_eq
  refine ⟨fun rest => ?_, fun {fuel} hfuel {rest} hrest => ?_⟩
  · rw [hchars, List.cons_append, skipBlanks_cons (isBlank_of_head hc)]
  · obtain ⟨fuel, rfl⟩ : ∃ k, fuel = k + 1 := ⟨fuel - 1, by rw [hchars, List.length_cons] at hfuel; omega⟩
    have hread := number?_chars h hrest
    rw [hchars, List.cons_append] at hread ⊢
    rw [after?_cons hc, hread]
    rfl

/-- The text of no value is the text of a value. -/
theorem isValueText_null : IsValueText "null".toList := by
  refine ⟨fun rest => rfl, fun {fuel} hfuel {rest} _ => ?_⟩
  obtain ⟨fuel, rfl⟩ : ∃ k, fuel = k + 1 := ⟨fuel - 1, by change 8 ≤ fuel at hfuel; omega⟩
  rfl

/-! ## Arrays -/

/-- Texts of values with a comma between any two are read as items. -/
theorem items?_intercalate {texts : List (List Char)} (hne : texts ≠ []) (h : ∀ text ∈ texts, IsValueText text) {fuel : ℕ}
    (hfuel : 2 * ([','].intercalate texts).length + 1 ≤ fuel) (rest : List Char) :
    items? fuel ([','].intercalate texts ++ ']' :: rest) = some (texts, rest) := by
  induction texts generalizing fuel with
  | nil => exact absurd rfl hne
  | cons text texts ih =>
    obtain ⟨htext, htexts⟩ := List.forall_mem_cons.1 h
    obtain ⟨fuel, rfl⟩ : ∃ k, fuel = k + 1 := ⟨fuel - 1, by omega⟩
    cases texts with
    | nil =>
      rw [List.intercalate_singleton] at hfuel ⊢
      have hafter := htext.after (by omega : _ ≤ fuel) (.bracket rest)
      simp only [items?, htext.skip, hafter, before_append, skipBlanks_cons (c := ']') rfl, Option.bind_eq_bind, Option.bind_some]
    | cons next texts =>
      have hlength : ([','].intercalate (text :: next :: texts)).length =
          text.length + 1 + ([','].intercalate (next :: texts)).length := by
        rw [List.intercalate_cons_cons, List.length_append, List.length_append, List.length_singleton]
      have hafter := htext.after (by omega : _ ≤ fuel) (.comma ([','].intercalate (next :: texts) ++ ']' :: rest))
      have hrest := ih (List.cons_ne_nil _ _) htexts (by omega : _ ≤ fuel)
      rw [List.intercalate_cons_cons, List.append_assoc, List.append_assoc, List.singleton_append]
      simp only [items?, htext.skip, hafter, before_append, skipBlanks_cons (c := ',') rfl, Option.bind_eq_bind, Option.bind_some, hrest,
        Option.map_some]

/-- Texts of values are read from an array. -/
theorem array?_intercalate {texts : List (List Char)} (h : ∀ text ∈ texts, IsValueText text) {fuel : ℕ}
    (hfuel : 2 * ([','].intercalate texts).length + 2 ≤ fuel) (rest : List Char) :
    array? fuel ([','].intercalate texts ++ ']' :: rest) = some (texts, rest) := by
  obtain ⟨fuel, rfl⟩ : ∃ k, fuel = k + 1 := ⟨fuel - 1, by omega⟩
  cases texts with
  | nil => rfl
  | cons text texts =>
    have hitems := items?_intercalate (List.cons_ne_nil text texts) h (by omega : _ ≤ fuel) rest
    obtain ⟨c, chars, hchars, hbracket⟩ := (h text List.mem_cons_self).exists_cons
    have hskip := (h text List.mem_cons_self).skip
    have htext : ∃ more, [','].intercalate (text :: texts) ++ ']' :: rest = text ++ more := by
      cases texts <;> simp [List.intercalate]
    obtain ⟨more, hmore⟩ := htext
    rw [hmore] at hitems ⊢
    rw [array?, hskip]
    split
    · rename_i heq
      rw [hchars] at heq
      exact absurd (List.cons.inj heq).1 hbracket
    · exact hitems

/-- Texts of values in brackets are the text of a value. -/
theorem isValueText_array {texts : List (List Char)} (h : ∀ text ∈ texts, IsValueText text) :
    IsValueText ('[' :: ([','].intercalate texts ++ [']'])) := by
  refine ⟨fun rest => skipBlanks_cons rfl _, fun {fuel} hfuel {rest} _ => ?_⟩
  rw [List.length_cons, List.length_append, List.length_singleton] at hfuel
  obtain ⟨fuel, rfl⟩ : ∃ k, fuel = k + 1 := ⟨fuel - 1, by omega⟩
  rw [List.cons_append, List.append_assoc, List.singleton_append, after?, array?_intercalate h (by omega)]
  rfl

/-! ## Strings -/

/-- The code points of characters that stand for themselves. -/
theorem codePoints?_append {chars : List Char} (h : ∀ c ∈ chars, IsPlain c) (rest : List Char) :
    codePoints? (chars ++ '"' :: rest) = some (chars.map Char.toNat, rest) := by
  induction chars with
  | nil => rfl
  | cons c chars ih =>
    obtain ⟨hquote, hescape, hcontrol⟩ := h c List.mem_cons_self
    have hrest := ih fun d hd => h d (List.mem_cons_of_mem c hd)
    rw [List.cons_append, codePoints?.eq_def]
    split
    · contradiction
    · rename_i heq
      exact absurd (List.cons.inj heq).1 hquote
    · rename_i heq
      exact absurd (List.cons.inj heq).1 hescape
    · rename_i heq
      exact absurd (List.cons.inj heq).1 hescape
    · rename_i heq
      obtain ⟨rfl, rfl⟩ := List.cons.inj heq
      rw [hrest, if_neg (by omega)]
      rfl

/-- A character is no half of a surrogate pair. -/
theorem characters?_cons (c : Char) (points : List Nat) : characters? (c.toNat :: points) = (characters? points).map (c :: ·) := by
  have hvalid : c.toNat < 0xd800 ∨ 0xdfff < c.toNat := c.valid.imp id And.left
  rw [characters?.eq_def]
  simp only
  rw [if_neg (by omega), if_neg (by omega), Char.ofNat_toNat]

/-- Characters make the text they are. -/
theorem characters?_map (chars : List Char) : characters? (chars.map Char.toNat) = some chars := by
  induction chars with
  | nil => rfl
  | cons c chars ih => rw [List.map_cons, characters?_cons, ih, Option.map_some]

/-- Characters that stand for themselves are read up to the quote. -/
theorem string?_append {chars : List Char} (h : ∀ c ∈ chars, IsPlain c) (rest : List Char) :
    string? (chars ++ '"' :: rest) = some (some (String.ofList chars), rest) := by
  rw [string?, codePoints?_append h, Option.map_some]
  dsimp only
  rw [characters?_map, Option.map_some]

/-! ## Objects -/

/-- A field of an object as it is written. -/
def memberChars (field : String × String) : List Char := '"' :: (field.1.toList ++ '"' :: ':' :: field.2.toList)

/-- The characters of a field that is written. -/
theorem toList_member (field : String × String) : (member field).toList = memberChars field := by simp [member, memberChars]

/-- A field that is read as it is written: its name stands for itself in a string, and its text is that of a value. -/
structure IsMember (field : String × String) : Prop where
  name : ∀ c ∈ field.1.toList, IsPlain c
  value : IsValueText field.2.toList

/-- The name of a field that is written is read. -/
theorem IsMember.string? {field : String × String} (h : IsMember field) (rest : List Char) :
    Json.string? (field.1.toList ++ '"' :: rest) = some (some field.1, rest) := by
  rw [string?_append h.name, String.ofList_toList]

/-- Fields that are written with a comma between any two are read. -/
theorem members?_intercalate {fields : List (String × String)} (hne : fields ≠ []) (h : ∀ field ∈ fields, IsMember field)
    {fuel : ℕ} (hfuel : 2 * ([','].intercalate (fields.map memberChars)).length ≤ fuel) (rest : List Char) :
    members? fuel ([','].intercalate (fields.map memberChars) ++ '\x7d' :: rest) =
      some (fields.map fun field => (some field.1, field.2.toList), rest) := by
  induction fields generalizing fuel with
  | nil => exact absurd rfl hne
  | cons field fields ih =>
    obtain ⟨hfield, hfields⟩ := List.forall_mem_cons.1 h
    have hmember : (memberChars field).length = field.1.toList.length + 3 + field.2.toList.length := by
      simp only [memberChars, List.length_cons, List.length_append]
      omega
    cases fields with
    | nil =>
      rw [List.map_singleton, List.intercalate_singleton] at hfuel ⊢
      obtain ⟨fuel, rfl⟩ : ∃ k, fuel = k + 1 := ⟨fuel - 1, by omega⟩
      have hafter := hfield.value.after (by omega : _ ≤ fuel) (.brace rest)
      simp only [memberChars, List.cons_append, List.append_assoc, members?, skipBlanks_cons (c := '"') rfl, hfield.string?,
        skipBlanks_cons (c := ':') rfl, hfield.value.skip, hafter, before_append, skipBlanks_cons (c := '\x7d') rfl,
        Option.bind_eq_bind, Option.bind_some, List.map_cons, List.map_nil]
    | cons next fields =>
      have hlength : ([','].intercalate ((field :: next :: fields).map memberChars)).length =
          (memberChars field).length + 1 + ([','].intercalate ((next :: fields).map memberChars)).length := by
        rw [List.map_cons, List.map_cons, List.intercalate_cons_cons, List.length_append, List.length_append, List.length_singleton,
          ← List.map_cons]
      obtain ⟨fuel, rfl⟩ : ∃ k, fuel = k + 1 := ⟨fuel - 1, by omega⟩
      have hafter := hfield.value.after (by omega : _ ≤ fuel)
        (.comma ([','].intercalate ((next :: fields).map memberChars) ++ '\x7d' :: rest))
      have hrest := ih (List.cons_ne_nil _ _) hfields (by omega : _ ≤ fuel)
      rw [List.map_cons, List.map_cons, List.intercalate_cons_cons, ← List.map_cons, List.append_assoc, List.append_assoc,
        List.singleton_append]
      simp only [memberChars, List.cons_append, List.append_assoc, members?, skipBlanks_cons (c := '"') rfl, hfield.string?,
        skipBlanks_cons (c := ':') rfl, hfield.value.skip, hafter, before_append, skipBlanks_cons (c := ',') rfl,
        Option.bind_eq_bind, Option.bind_some, hrest, Option.map_some]
      rfl

/-- Fields that are written are read from an object. -/
theorem object?_intercalate {fields : List (String × String)} (h : ∀ field ∈ fields, IsMember field) {fuel : ℕ}
    (hfuel : 2 * ([','].intercalate (fields.map memberChars)).length + 1 ≤ fuel) (rest : List Char) :
    object? fuel ([','].intercalate (fields.map memberChars) ++ '\x7d' :: rest) =
      some (fields.map fun field => (some field.1, field.2.toList), rest) := by
  obtain ⟨fuel, rfl⟩ : ∃ k, fuel = k + 1 := ⟨fuel - 1, by omega⟩
  cases fields with
  | nil => rfl
  | cons field fields =>
    have hmembers := members?_intercalate (List.cons_ne_nil field fields) h (by omega : _ ≤ fuel) rest
    have htext : ∃ more, [','].intercalate ((field :: fields).map memberChars) ++ '\x7d' :: rest = '"' :: more := by
      cases fields <;> simp [List.intercalate, memberChars]
    obtain ⟨more, hmore⟩ := htext
    rw [hmore] at hmembers ⊢
    rw [object?, skipBlanks_cons rfl]
    exact hmembers

/-! ## Whole texts -/

/-- What is written and read one by one is read as a whole. -/
theorem mapM_map_eq_some {α β : Type} {write : β → α} {read : α → Option β} {ys : List β}
    (h : ∀ y ∈ ys, read (write y) = some y) : (ys.map write).mapM read = some ys := by
  induction ys with
  | nil => rfl
  | cons y ys ih =>
    obtain ⟨hy, hys⟩ := List.forall_mem_cons.1 h
    rw [List.map_cons, List.mapM_cons, hy, ih hys]
    rfl

/-- The items of an array that is written are read. -/
theorem itemsIn?_intercalate {texts : List String} (h : ∀ text ∈ texts, IsValueText text.toList) :
    itemsIn? ("[" ++ ",".intercalate texts ++ "]") = some texts := by
  have htext : ("[" ++ ",".intercalate texts ++ "]").toList = '[' :: ([','].intercalate (texts.map String.toList) ++ [']']) := by
    rw [String.toList_append, String.toList_append, String.toList_intercalate]
    rfl
  have hvalues : ∀ chars ∈ texts.map String.toList, IsValueText chars := by
    intro chars hchars
    obtain ⟨text, hmem, rfl⟩ := List.mem_map.1 hchars
    exact h text hmem
  rw [itemsIn?, whole?, htext, skipBlanks_cons rfl, arrayText?,
    array?_intercalate hvalues (by simp only [List.length_cons, List.length_append, List.length_nil]; omega)]
  simp [skipBlanks, Function.comp_def]

/-- The fields of an object that is written are read. -/
theorem fieldsIn?_object {fs : List (String × String)} (h : ∀ field ∈ fs, IsMember field) : fieldsIn? (object fs) = some fs := by
  have htext : (object fs).toList = '\x7b' :: ([','].intercalate (fs.map memberChars) ++ ['\x7d']) := by
    have hmembers : (fs.map member).map String.toList = fs.map memberChars := by
      rw [List.map_map]
      exact List.map_congr_left fun field _ => toList_member field
    rw [object, String.toList_append, String.toList_append, String.toList_intercalate, hmembers]
    rfl
  have hnames : (fs.map fun field => (some field.1, field.2.toList)).mapM named? = some fs :=
    mapM_map_eq_some fun field _ => by simp [named?]
  rw [fieldsIn?, whole?, htext, skipBlanks_cons rfl, objectText?,
    object?_intercalate h (by simp only [List.length_cons, List.length_append, List.length_nil]; omega)]
  exact hnames

end PerfectMatching.Json
