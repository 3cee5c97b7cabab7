import PerfectMatching.Proofs.Json.Assignments
import PerfectMatching.Proofs.Json.Weights

/-!
# The laws of the standard library for JSON

The standard library reads what it writes (`Json.lawful_standard`): weights with their value, nodes as
numbers in an array, and objects field by field.
-/

namespace PerfectMatching.Json

open Binary64 Layout Number

/-! ## Nodes -/

/-- A node as a number. -/
def Number.ofNode (n : ℕ) : Number := ⟨false, Nat.toDigits 10 n, none, none⟩

/-- A node is written in its digits. -/
theorem chars_ofNode (n : ℕ) : (ofNode n).chars = (toString n).toList := by
  rw [Nat.toString_eq_repr, Nat.toList_repr]
  simp [Number.chars, ofNode, fractionChars, powerChars]

/-- A node is written by the rules. -/
theorem wellFormed_ofNode (n : ℕ) : (ofNode n).WellFormed where
  whole := isDigits_toDigits n
  head h := by
    rcases Nat.eq_zero_or_pos n with rfl | hn
    · rfl
    · exact absurd h (head_toDigits hn.ne')
  fraction := nofun
  power := nofun

/-- A node that fits into a word is read as it is. -/
theorem index?_ofNode {n : ℕ} (h : n < wordLimit) : (ofNode n).index? = some n := by
  simp [index?, ofNode, Nat.ofDigitChars_ten_toDigits, h]

/-! ## Whole texts -/

/-- A number that is a whole text is read. -/
theorem whole?_number? {x : Number} (h : x.WellFormed) {text : String} (htext : text.toList = x.chars) :
    whole? number? text = some x := by
  have hskip := (isValueText_chars h).skip []
  have hread := number?_chars h .nil
  rw [List.append_nil] at hskip hread
  rw [whole?, htext, hskip, hread]
  rfl

/-- A finite weight that is written is read as a finite one at most a unit in the last place from it. -/
theorem exists_weightIn?_text {x : Float} (h : x.isFinite = true) :
    ∃ y, weightIn? (json.text x) = some y ∧ y.isFinite = true ∧ |value y - value x| ≤ unit x := by
  obtain ⟨number, hnumber, hchars, y, hy, hfinite, hvalue⟩ := exists_value?_chars h
  refine ⟨y, ?_, hfinite, ?_⟩
  · rw [weightIn?, whole?_number? hnumber (by rw [Layout.text, String.toList_ofList, hchars]), Option.bind_some, hy]
  · rw [hvalue, sub_self, abs_zero]
    exact (two_zpow_pos _).le

/-- A weight that is not finite is written as null. -/
theorem text_of_not_isFinite {x : Float} (h : x.isFinite = false) : json.text x = "null" := by
  rw [Layout.text, chars_of_not_isFinite h, String.ofList_toList]

/-- A node is written as the text of a value. -/
theorem isValueText_toString (n : ℕ) : IsValueText (toString n).toList :=
  chars_ofNode n ▸ isValueText_chars (wellFormed_ofNode n)

/-- Nodes that are written are read. -/
theorem nodesIn?_nodesArray {nodes : List ℕ} (h : ∀ n ∈ nodes, n < wordLimit) : nodesIn? (nodesArray nodes) = some nodes := by
  have hitems : itemsIn? (nodesArray nodes) = some (nodes.map toString) := by
    refine itemsIn?_intercalate fun text htext => ?_
    obtain ⟨n, _, rfl⟩ := List.mem_map.1 htext
    exact isValueText_toString n
  rw [nodesIn?, hitems]
  refine mapM_map_eq_some fun n hn => ?_
  rw [nodeIn?, whole?_number? (wellFormed_ofNode n) (chars_ofNode n).symm, Option.bind_some, index?_ofNode (h n hn)]

/-! ## The library -/

/-- A text that is written for a weight or for nodes is the text of a value. -/
theorem isValueText_of_isWritten {text : String} (h : standard.IsWritten text) : IsValueText text.toList := by
  cases h with
  | weight x =>
    simp only [standard]
    rw [Layout.text, String.toList_ofList]
    cases h : x.isFinite with
    | true =>
      obtain ⟨number, hnumber, hchars, _⟩ := exists_value?_chars h
      exact hchars ▸ isValueText_chars hnumber
    | false => exact chars_of_not_isFinite h ▸ isValueText_null
  | nodes nodes =>
    have htext : (nodesArray nodes).toList = '[' :: ([','].intercalate ((nodes.map toString).map String.toList) ++ [']']) := by
      rw [nodesArray, String.toList_append, String.toList_append, String.toList_intercalate]
      rfl
    simp only [standard]
    rw [htext]
    refine isValueText_array fun chars hchars => ?_
    obtain ⟨text, htext, rfl⟩ := List.mem_map.1 hchars
    obtain ⟨n, _, rfl⟩ := List.mem_map.1 htext
    exact isValueText_toString n

/-- The standard library reads what it writes. -/
theorem lawful_standard : standard.Lawful where
  near x h := by simpa only [standard] using exists_weightIn?_text h
  null x h := by simpa only [standard] using text_of_not_isFinite h
  refused := rfl
  nodes nodes h := by simpa only [standard] using nodesIn?_nodesArray h
  fields fields h := by
    simpa only [standard] using
      fieldsIn?_object fun field hfield => ⟨(h field hfield).1, isValueText_of_isWritten (h field hfield).2⟩

end PerfectMatching.Json
