/-!
# White space

The tokens of a text are its longest runs of characters that are not white space. White space is the Unicode property of
that name: twenty-five characters, of which core's `Char.isWhitespace` knows four.
-/

namespace PerfectMatching.Text

/-- Has the Unicode property White_Space. -/
def isBlank (c : Char) : Bool :=
  let n := c.toNat
  (0x09 ≤ n && n ≤ 0x0d) || n == 0x20 || n == 0x85 || n == 0xa0 || n == 0x1680 || (0x2000 ≤ n && n ≤ 0x200a) ||
    n == 0x2028 || n == 0x2029 || n == 0x202f || n == 0x205f || n == 0x3000

/-- Puts a character before a text of which the first token, which may be empty, and the tokens after it are known. -/
def splitBefore (c : Char) : List Char × List (List Char) → List Char × List (List Char)
  | (token, tokens) =>
    if isBlank c then ([], if token.isEmpty then tokens else token :: tokens) else (c :: token, tokens)

/-- The tokens of a text in order. -/
def tokens (text : List Char) : List (List Char) :=
  let (token, tokens) := text.foldr splitBefore ([], [])
  if token.isEmpty then tokens else token :: tokens

end PerfectMatching.Text
