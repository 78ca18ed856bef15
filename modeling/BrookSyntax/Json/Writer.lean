import BrookSyntax.Json

namespace BrookSyntax

namespace Json

/-- The hexadecimal digit of a number below sixteen, in small letters. -/
def hexDigit (n : Nat) : CodeUnit := CodeUnit.of (Nat.digitChar n)

/-- The escape sequence that gives the four hexadecimal digits of a unit. -/
def hexEscape (u : CodeUnit) : Text :=
  "\\u" ++ [hexDigit (u.toNat / 4096 % 16), hexDigit (u.toNat / 256 % 16),
    hexDigit (u.toNat / 16 % 16), hexDigit (u.toNat % 16)]

/-- A unit as it is written in a string, unless it is half of a surrogate pair. -/
def escapeUnit (u : CodeUnit) : Text :=
  if u = CodeUnit.quote then "\\\""
  else if u = CodeUnit.backslash then "\\\\"
  else if u = 8 then "\\b"
  else if u = 9 then "\\t"
  else if u = 10 then "\\n"
  else if u = 12 then "\\f"
  else if u = 13 then "\\r"
  else if u < 32 || u.isSurrogate then hexEscape u
  else [u]

/-- The inside of a string. -/
def escape : Text → Text
  | [] => []
  | [u] => escapeUnit u
  | u :: v :: rest =>
    if u.isHighSurrogate && v.isLowSurrogate then u :: v :: escape rest
    else escapeUnit u ++ escape (v :: rest)

/-- A string with its quotes. -/
def writeText (t : Text) : Text := CodeUnit.quote :: escape t ++ [CodeUnit.quote]

/-- A number; an infinite one has no JSON form and is written as null. -/
def writeNumber (x : Binary64) : Text := if x.isFinite then x.text else "null"

def writeBool (b : Bool) : Text := if b then "true" else "false"

/-- How values are set out: what stands before a part of an array or object, and before its closing
bracket, by the level of nesting, and what stands between a key and its value. -/
structure Layout where
  gap : Nat → Text
  colon : Text

/-- Everything on one line, without blanks. -/
def Layout.compact : Layout := ⟨fun _ => [], ":"⟩

/-- Every part on a line of its own, two blanks further in for each level. -/
def Layout.indented : Layout :=
  ⟨fun level => CodeUnit.newline :: Text.blanks (2 * level), ": "⟩

mutual

/-- Writes a value that stands at a level in front of a text. -/
def writeAt (layout : Layout) (level : Nat) : Json → Text → Text
  | null, rest => "null" ++ rest
  | bool value, rest => writeBool value ++ rest
  | number value, rest => writeNumber value ++ rest
  | text value, rest => writeText value ++ rest
  | array [], rest => "[]" ++ rest
  | array (item :: items), rest =>
    "[" ++ (layout.gap (level + 1) ++
      item.writeAt layout (level + 1)
        (writeItems layout (level + 1) items (layout.gap level ++ ("]" ++ rest))))
  | object [], rest => "\x7b\x7d" ++ rest
  | object ((key, value) :: members), rest =>
    "\x7b" ++ (layout.gap (level + 1) ++ (writeText key ++ (layout.colon ++
      value.writeAt layout (level + 1)
        (writeMembers layout (level + 1) members (layout.gap level ++ ("\x7d" ++ rest))))))

/-- Writes the further items of an array, each after a comma. -/
def writeItems (layout : Layout) (level : Nat) : List Json → Text → Text
  | [], rest => rest
  | item :: items, rest =>
    "," ++ (layout.gap level ++
      item.writeAt layout level (writeItems layout level items rest))

/-- Writes the further members of an object, each after a comma. -/
def writeMembers (layout : Layout) (level : Nat) : List (Text × Json) → Text → Text
  | [], rest => rest
  | (key, value) :: members, rest =>
    "," ++ (layout.gap level ++ (writeText key ++ (layout.colon ++
      value.writeAt layout level (writeMembers layout level members rest))))

end

/-- The text of a value. -/
def write (layout : Layout) (value : Json) : Text := value.writeAt layout 0 []

end Json

end BrookSyntax
