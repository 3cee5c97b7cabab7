import PerfectMatching.Decimal.Layout
import PerfectMatching.Json
import PerfectMatching.Json.Number

/-!
# The standard library for JSON

Weights are written with the shortest digits and read to the nearest binary64 number, and what is no number is written as null, which
no weight is read from. The reader accepts what the grammar of JSON accepts and no more. It hands out the values in an object or an array
as they are written; a string may name half of a surrogate pair without the other half, and a name that does so has no text.
-/

namespace PerfectMatching.Json

/-- The white space of JSON. -/
def isBlank (c : Char) : Bool := c == ' ' || c == '\n' || c == '\t' || c == '\r'

/-- A text without the white space it starts with. -/
def skipBlanks (text : List Char) : List Char := text.dropWhile isBlank

/-! ## Strings -/

/-- The value of a hexadecimal digit. -/
def hexDigit? (c : Char) : Option Nat :=
  if c.isDigit then some (c.toNat - '0'.toNat)
  else if 'a' ≤ c ∧ c ≤ 'f' then some (c.toNat - 'a'.toNat + 10)
  else if 'A' ≤ c ∧ c ≤ 'F' then some (c.toNat - 'A'.toNat + 10)
  else none

/-- The character that a letter after a backslash stands for. -/
def escaped? : Char → Option Char
  | '"' => some '"'
  | '\\' => some '\\'
  | '/' => some '/'
  | 'b' => some '\x08'
  | 'f' => some '\x0c'
  | 'n' => some '\n'
  | 'r' => some '\r'
  | 't' => some '\t'
  | _ => none

/-- The code points of a string up to its closing quote, an escaped half of a surrogate pair counting as one, and what
follows the quote. -/
def codePoints? : List Char → Option (List Nat × List Char)
  | [] => none
  | '"' :: rest => some ([], rest)
  | '\\' :: 'u' :: a :: b :: c :: d :: rest => do
    let n ← [a, b, c, d].foldlM (fun n x => (hexDigit? x).map (n * 16 + ·)) 0
    let (points, rest) ← codePoints? rest
    some (n :: points, rest)
  | '\\' :: c :: rest => do
    let c ← escaped? c
    let (points, rest) ← codePoints? rest
    some (c.toNat :: points, rest)
  | c :: rest => do
    if c.toNat < 0x20 then none
    else
      let (points, rest) ← codePoints? rest
      some (c.toNat :: points, rest)

/-- The characters of a list of code points in which the halves of surrogate pairs are joined; none if a half stands
alone. -/
def characters? : List Nat → Option (List Char)
  | [] => some []
  | n :: rest =>
    if 0xd800 ≤ n ∧ n < 0xdc00 then
      match rest with
      | m :: rest =>
        if 0xdc00 ≤ m ∧ m < 0xe000 then
          (characters? rest).map (Char.ofNat (0x10000 + (n - 0xd800) * 0x400 + (m - 0xdc00)) :: ·)
        else none
      | [] => none
    else if 0xdc00 ≤ n ∧ n < 0xe000 then none
    else (characters? rest).map (Char.ofNat n :: ·)

/-- A string after its opening quote. -/
def string? (text : List Char) : Option (Option String × List Char) :=
  (codePoints? text).map fun (points, rest) => ((characters? points).map String.ofList, rest)

/-! ## Values -/

/-- A text up to what follows after some of it. -/
def before (text rest : List Char) : List Char := text.take (text.length - rest.length)

mutual

/-- What follows the value that a text starts with. -/
def after? : Nat → List Char → Option (List Char)
  | 0, _ => none
  | fuel + 1, text =>
    match text with
    | '"' :: rest => (string? rest).map (·.2)
    | '[' :: rest => (array? fuel rest).map (·.2)
    | '\x7b' :: rest => (object? fuel rest).map (·.2)
    | 'n' :: 'u' :: 'l' :: 'l' :: rest => some rest
    | 't' :: 'r' :: 'u' :: 'e' :: rest => some rest
    | 'f' :: 'a' :: 'l' :: 's' :: 'e' :: rest => some rest
    | text => (number? text).map (·.2)

/-- The items of an array, after its opening bracket. -/
def array? : Nat → List Char → Option (List (List Char) × List Char)
  | 0, _ => none
  | fuel + 1, text =>
    match skipBlanks text with
    | ']' :: rest => some ([], rest)
    | _ => items? fuel text

/-- The items of an array from the next one on. -/
def items? : Nat → List Char → Option (List (List Char) × List Char)
  | 0, _ => none
  | fuel + 1, text => do
    let text := skipBlanks text
    let rest ← after? fuel text
    let item := before text rest
    match skipBlanks rest with
    | ']' :: rest => some ([item], rest)
    | ',' :: rest => (items? fuel rest).map fun (items, rest) => (item :: items, rest)
    | _ => none

/-- The fields of an object, after its opening brace. -/
def object? : Nat → List Char → Option (List (Option String × List Char) × List Char)
  | 0, _ => none
  | fuel + 1, text =>
    match skipBlanks text with
    | '\x7d' :: rest => some ([], rest)
    | _ => members? fuel text

/-- The fields of an object from the next one on. -/
def members? : Nat → List Char → Option (List (Option String × List Char) × List Char)
  | 0, _ => none
  | fuel + 1, text =>
    match skipBlanks text with
    | '"' :: rest => do
      let (name, text) ← string? rest
      match skipBlanks text with
      | ':' :: rest => do
        let text := skipBlanks rest
        let rest ← after? fuel text
        let value := before text rest
        match skipBlanks rest with
        | '\x7d' :: rest => some ([(name, value)], rest)
        | ',' :: rest => (members? fuel rest).map fun (fields, rest) => ((name, value) :: fields, rest)
        | _ => none
      | _ => none
    | _ => none

end

/-! ## Texts -/

/-- Reads a whole text in some way; what is read may stand between white space. -/
def whole? {β : Type} (read : List Char → Option (β × List Char)) (text : String) : Option β :=
  match read (skipBlanks text.toList) with
  | some (x, rest) => if (skipBlanks rest).isEmpty then some x else none
  | none => none

/-- An array and what follows it. -/
def arrayText? (chars : List Char) : Option (List (List Char) × List Char) :=
  match chars with
  | '[' :: rest => array? (3 * chars.length) rest
  | _ => none

/-- An object and what follows it. -/
def objectText? (chars : List Char) : Option (List (Option String × List Char) × List Char) :=
  match chars with
  | '\x7b' :: rest => object? (3 * chars.length) rest
  | _ => none

/-- The items of a text that is an array. -/
def itemsIn? (text : String) : Option (List String) := (whole? arrayText? text).map (·.map String.ofList)

/-- A field of an object with its name, if that has a text. -/
def named? (field : Option String × List Char) : Option (String × String) :=
  field.1.map fun name => (name, String.ofList field.2)

/-- The fields of a text that is an object, all of which have names. -/
def fieldsIn? (text : String) : Option (List (String × String)) := (whole? objectText? text).bind (·.mapM named?)

/-- A field, the name of which stands for itself in a string, with its value. -/
def member (field : String × String) : String := "\"" ++ field.1 ++ "\":" ++ field.2

/-- An object of such fields. -/
def object (fields : List (String × String)) : String := "\x7b" ++ ",".intercalate (fields.map member) ++ "\x7d"

/-- The weight that a text gives. -/
def weightIn? (text : String) : Option Float := (whole? number? text).bind Number.value?

/-- A list of nodes as an array. -/
def nodesArray (nodes : List Nat) : String := "[" ++ ",".intercalate (nodes.map toString) ++ "]"

/-- The node that a text gives. -/
def nodeIn? (text : String) : Option Nat := (whole? number? text).bind Number.index?

/-- The nodes that a text lists. -/
def nodesIn? (text : String) : Option (List Nat) := (itemsIn? text).bind (·.mapM nodeIn?)

/-- The standard library. -/
def standard : Library where
  weightText := Layout.json.text
  weight? := weightIn?
  nodesText := nodesArray
  nodes? := nodesIn?
  objectText := object
  fields? := fieldsIn?
  items? := itemsIn?

end PerfectMatching.Json
