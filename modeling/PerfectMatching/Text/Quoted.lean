import PerfectMatching.Text.Extending
import PerfectMatching.Text.Unprintable

/-!
# Quoted text

A token that a message complains about stands between double quotes. Inside them a quote, a backslash and the four common
control characters are escaped by a backslash and a letter; a character that has no visible form, or that would be drawn
with the one before it, is written by its code point in hexadecimal digits. All else is kept.
-/

namespace PerfectMatching.Text

/-- A character as it stands between quotes. -/
def escape (c : Char) : List Char :=
  if c = '"' then ['\\', '"']
  else if c = '\\' then ['\\', '\\']
  else if c = '\n' then ['\\', 'n']
  else if c = '\r' then ['\\', 'r']
  else if c = '\t' then ['\\', 't']
  else if c = '\x00' then ['\\', '0']
  else if isExtending c || isUnprintable c then
    ['\\', 'u', '\x7b'] ++ Nat.toDigits 16 c.toNat ++ ['\x7d']
  else [c]

/-- A text between double quotes. -/
def quote (text : List Char) : List Char := '"' :: (text.flatMap escape ++ ['"'])

end PerfectMatching.Text
