import BrookSyntax.CodeUnit

namespace BrookSyntax

/-- A sequence of code units; surrogates may stand alone in it. -/
abbrev Text := List CodeUnit

namespace Text

/-- The one or two units that encode a character. -/
def ofChar (c : Char) : Text :=
  if c.toNat < 0x10000 then [c.toNat.toUInt16]
  else
    [(0xD800 + (c.toNat - 0x10000) / 0x400).toUInt16,
      (0xDC00 + (c.toNat - 0x10000) % 0x400).toUInt16]

/-- The units of a string. -/
def ofString (s : String) : Text := s.toList.flatMap ofChar

instance : Coe String Text := ⟨ofString⟩

/-- The character that a surrogate pair encodes. -/
def pairChar (high low : CodeUnit) : Char :=
  Char.ofNat (0x10000 + (high.toNat - 0xD800) * 0x400 + (low.toNat - 0xDC00))

/-- The characters of a text; a lone surrogate becomes the replacement character. -/
def toChars : Text → List Char
  | [] => []
  | [u] => [if u.isSurrogate then '\uFFFD' else Char.ofNat u.toNat]
  | u :: v :: rest =>
    if u.isHighSurrogate && v.isLowSurrogate then pairChar u v :: toChars rest
    else (if u.isSurrogate then '\uFFFD' else Char.ofNat u.toNat) :: toChars (v :: rest)

/-- The string of a text; a lone surrogate becomes the replacement character. -/
def toString (t : Text) : String := String.ofList (toChars t)

/-- Some surrogate of the text has no partner. -/
def hasLoneSurrogate : Text → Bool
  | [] => false
  | [u] => u.isSurrogate
  | u :: v :: rest =>
    if u.isHighSurrogate && v.isLowSurrogate then hasLoneSurrogate rest
    else u.isSurrogate || hasLoneSurrogate (v :: rest)

/-- The decimal digits of a natural number. -/
def ofNat (n : Nat) : Text := (Nat.toDigits 10 n).map CodeUnit.of

/-- The value of a decimal digit. -/
def digitValue (u : CodeUnit) : Nat := u.toNat - 48

/-- The number that a run of decimal digits writes. -/
def toNat (t : Text) : Nat := t.foldl (fun n u => n * 10 + digitValue u) 0

/-- The texts one after the other with a separator between neighbours. -/
def join (separator : Text) (texts : List Text) : Text := separator.intercalate texts

/-- As many blanks as asked for. -/
def blanks (n : Nat) : Text := List.replicate n (CodeUnit.of ' ')

/-- The text between apostrophes. -/
def quoted (t : Text) : Text := CodeUnit.of '\'' :: t ++ [CodeUnit.of '\'']

/-- The text with small Latin letters made capital. -/
def toUpper (t : Text) : Text := t.map CodeUnit.toUpper

end Text

end BrookSyntax
