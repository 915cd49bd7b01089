import MarkupPairs.Unicode.Additions
import MarkupPairs.Unicode.Alphabetic
import MarkupPairs.Unicode.Mark
import MarkupPairs.Unicode.Number

/-!
# Character classes

The classes that the scanners test: blanks, letters and numbers, and the characters of a word. Each
answers for ASCII at once and looks up a table for the rest. The letters and numbers are those of
edition 17 of the Unicode standard, the characters of a word those of edition 16, so a letter that
is new in edition 17 belongs to no word.
-/

namespace MarkupPairs.Unicode

/-- Whether a character has the property White_Space. -/
def isWhite (c : Char) : Bool :=
  let code := c.toNat
  (0x9 ≤ code && code ≤ 0xd) || code == 0x20 || code == 0x85 || code == 0xa0 || code == 0x1680 ||
    (0x2000 ≤ code && code ≤ 0x200a) || code == 0x2028 || code == 0x2029 || code == 0x202f ||
    code == 0x205f || code == 0x3000

/-- Whether a character is a letter or a number of any kind, by edition 17. -/
def isAlphanumeric (c : Char) : Bool :=
  if c.toNat < 0x80 then c.isAlphanum
  else alphabetic.contains c.toNat || decimalDigit.contains c.toNat ||
    otherNumber.contains c.toNat || addedAlphanumeric.contains c.toNat

/-- Whether a character joins two words into one in writing, such as the underscore. -/
def isConnector (c : Char) : Bool :=
  let code := c.toNat
  code == 0x5f || code == 0x203f || code == 0x2040 || code == 0x2054 || code == 0xfe33 ||
    code == 0xfe34 || (0xfe4d ≤ code && code ≤ 0xfe4f) || code == 0xff3f

/-- Whether a character controls the joining of its neighbours without being seen. -/
def isJoinControl (c : Char) : Bool :=
  c.toNat == 0x200c || c.toNat == 0x200d

/-- Whether a character belongs to a word: a letter, mark, decimal digit, connector or join
control, by edition 16. -/
def isWordChar (c : Char) : Bool :=
  if c.toNat < 0x80 then c.isAlphanum || c == '_'
  else alphabetic.contains c.toNat || mark.contains c.toNat || decimalDigit.contains c.toNat ||
    isConnector c || isJoinControl c

end MarkupPairs.Unicode
