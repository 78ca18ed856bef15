namespace BrookSyntax

/-- A UTF-16 code unit: text is measured, cut and compared in these. -/
abbrev CodeUnit := UInt16

namespace CodeUnit

/-- The unit of a character of the basic multilingual plane. -/
def of (c : Char) : CodeUnit := c.toNat.toUInt16

/-- The unit that ends a line. -/
def newline : CodeUnit := of '\n'

/-- The unit that opens and closes a string. -/
def quote : CodeUnit := of '"'

/-- The unit that opens an escape sequence. -/
def backslash : CodeUnit := of '\\'

/-- The unit is a decimal digit. -/
def isDigit (u : CodeUnit) : Bool := of '0' ≤ u && u ≤ of '9'

/-- The unit may start a word: a Latin letter or an underscore. -/
def isWordStart (u : CodeUnit) : Bool :=
  (of 'A' ≤ u && u ≤ of 'Z') || (of 'a' ≤ u && u ≤ of 'z') || u == of '_'

/-- The unit may continue a word: a letter, an underscore or a digit. -/
def isWordPart (u : CodeUnit) : Bool := u.isWordStart || u.isDigit

/-- The unit is white space: the ASCII blanks and line ends, the Unicode spaces and separators, and
the byte-order mark. -/
def isSpace (u : CodeUnit) : Bool :=
  (0x0009 ≤ u && u ≤ 0x000D) || u == 0x0020 || u == 0x00A0 || u == 0x1680 ||
    (0x2000 ≤ u && u ≤ 0x200A) || u == 0x2028 || u == 0x2029 || u == 0x202F || u == 0x205F ||
    u == 0x3000 || u == 0xFEFF

/-- The unit is the first half of a surrogate pair. -/
def isHighSurrogate (u : CodeUnit) : Bool := 0xD800 ≤ u && u ≤ 0xDBFF

/-- The unit is the second half of a surrogate pair. -/
def isLowSurrogate (u : CodeUnit) : Bool := 0xDC00 ≤ u && u ≤ 0xDFFF

/-- The unit is half of a surrogate pair. -/
def isSurrogate (u : CodeUnit) : Bool := 0xD800 ≤ u && u ≤ 0xDFFF

/-- The Latin capital letter of a small one; other units are unchanged. -/
def toUpper (u : CodeUnit) : CodeUnit :=
  if of 'a' ≤ u && u ≤ of 'z' then u - 32 else u

end CodeUnit

end BrookSyntax
