import BrookSyntax.Json.Record

namespace BrookSyntax

namespace Json

def isBlank (u : CodeUnit) : Bool := u == 32 || u == 9 || u == 10 || u == 13

/-- The text after the blanks at its start. -/
def skipBlanks (t : Text) : Text := t.dropWhile isBlank

/-- The text after a unit that has to stand at its start. -/
def expect? (u : CodeUnit) : Text → Option Text
  | [] => none
  | v :: rest => if v = u then some rest else none

/-- The text after a word that has to stand at its start. -/
def expectWord? : Text → Text → Option Text
  | [], t => some t
  | u :: word, t => (expect? u t).bind (expectWord? word)

/-- The value of a hexadecimal digit. -/
def hexValue? (u : CodeUnit) : Option Nat :=
  if u.isDigit then some (u.toNat - 48)
  else if CodeUnit.of 'a' ≤ u && u ≤ CodeUnit.of 'f' then some (u.toNat - 87)
  else if CodeUnit.of 'A' ≤ u && u ≤ CodeUnit.of 'F' then some (u.toNat - 55)
  else none

/-- The unit given by four hexadecimal digits. -/
def hexUnit? (a b c d : CodeUnit) : Option CodeUnit := do
  let a ← hexValue? a
  let b ← hexValue? b
  let c ← hexValue? c
  let d ← hexValue? d
  pure (a * 4096 + b * 256 + c * 16 + d).toUInt16

/-- The unit that a short escape sequence stands for, by the unit after its backslash. -/
def shortEscape? (u : CodeUnit) : Option CodeUnit :=
  if u = CodeUnit.quote then some CodeUnit.quote
  else if u = CodeUnit.backslash then some CodeUnit.backslash
  else if u = CodeUnit.of '/' then some (CodeUnit.of '/')
  else if u = CodeUnit.of 'b' then some 8
  else if u = CodeUnit.of 'f' then some 12
  else if u = CodeUnit.of 'n' then some 10
  else if u = CodeUnit.of 'r' then some 13
  else if u = CodeUnit.of 't' then some 9
  else none

/-- Puts a unit before the first of two texts. -/
def consFirst (u : CodeUnit) (r : Text × Text) : Text × Text := (u :: r.1, r.2)

/-- The inside of a string and the text after its closing quote. -/
def readString : Text → Option (Text × Text)
  | [] => none
  | u :: rest =>
    if u = CodeUnit.quote then some ([], rest)
    else if u < 32 then none
    else if u = CodeUnit.backslash then
      match rest with
      | [] => none
      | v :: rest =>
        if v = CodeUnit.of 'u' then
          match rest with
          | a :: b :: c :: d :: rest =>
            (hexUnit? a b c d).bind fun w => (readString rest).map (consFirst w)
          | _ => none
        else (shortEscape? v).bind fun w => (readString rest).map (consFirst w)
    else (readString rest).map (consFirst u)

/-- A run of digits that has at least one. -/
def readDigits (t : Text) : Option (Text × Text) :=
  match t.takeWhile CodeUnit.isDigit with
  | [] => none
  | digits => some (digits, t.dropWhile CodeUnit.isDigit)

/-- The digits before the decimal point: a zero alone, or digits that do not start with one. -/
def readWhole (t : Text) : Option (Text × Text) :=
  match t with
  | [] => none
  | u :: rest => if u = CodeUnit.of '0' then some ([u], rest) else readDigits t

/-- The digits after a decimal point, if there is one. -/
def readFraction (t : Text) : Option (Text × Text) :=
  match expect? (CodeUnit.of '.') t with
  | some rest => readDigits rest
  | none => some ([], t)

/-- The exponent, if there is one. -/
def readExponent (t : Text) : Option (Int × Text) :=
  match t with
  | [] => some (0, t)
  | u :: rest =>
    if u = CodeUnit.of 'e' ∨ u = CodeUnit.of 'E' then
      match rest with
      | [] => none
      | v :: more =>
        if v = CodeUnit.of '-' then
          (readDigits more).map fun r => (-(Text.toNat r.1 : Int), r.2)
        else if v = CodeUnit.of '+' then
          (readDigits more).map fun r => ((Text.toNat r.1 : Int), r.2)
        else (readDigits rest).map fun r => ((Text.toNat r.1 : Int), r.2)
    else some (0, t)

/-- A number and the text after it. -/
def readNumber (t : Text) : Option (Binary64 × Text) := do
  let negative := t.head? == some (CodeUnit.of '-')
  let (whole, t) ← readWhole (if negative then t.drop 1 else t)
  let (fraction, t) ← readFraction t
  let (exponent, t) ← readExponent t
  pure (.ofDecimal negative (Text.toNat (whole ++ fraction)) (exponent - fraction.length), t)

mutual

/-- A value and the text after it; at most as many steps are made as given. -/
def readValue : Nat → Text → Option (Json × Text)
  | 0, _ => none
  | n + 1, t =>
    match skipBlanks t with
    | [] => none
    | u :: rest =>
      if u = CodeUnit.of '\x7b' then
        match expect? (CodeUnit.of '\x7d') (skipBlanks rest) with
        | some rest => some (.object [], rest)
        | none => (readMembers n rest).map fun r => (.object (setAll [] r.1), r.2)
      else if u = CodeUnit.of '[' then
        match expect? (CodeUnit.of ']') (skipBlanks rest) with
        | some rest => some (.array [], rest)
        | none => (readItems n rest).map fun r => (.array r.1, r.2)
      else if u = CodeUnit.quote then
        (readString rest).map fun r => (.text r.1, r.2)
      else if u = CodeUnit.of 't' then (expectWord? "rue" rest).map fun r => (.bool true, r)
      else if u = CodeUnit.of 'f' then (expectWord? "alse" rest).map fun r => (.bool false, r)
      else if u = CodeUnit.of 'n' then (expectWord? "ull" rest).map fun r => (.null, r)
      else (readNumber (u :: rest)).map fun r => (.number r.1, r.2)

/-- The items of an array up to its closing bracket, at least one. -/
def readItems : Nat → Text → Option (List Json × Text)
  | 0, _ => none
  | n + 1, t =>
    (readValue n t).bind fun (item, t) =>
      match skipBlanks t with
      | [] => none
      | u :: rest =>
        if u = CodeUnit.of ']' then some ([item], rest)
        else if u = CodeUnit.of ',' then
          (readItems n rest).map fun r => (item :: r.1, r.2)
        else none

/-- The members of an object up to its closing brace, at least one; a key may be there more than
once. -/
def readMembers : Nat → Text → Option (List (Text × Json) × Text)
  | 0, _ => none
  | n + 1, t =>
    (expect? CodeUnit.quote (skipBlanks t)).bind fun t =>
    (readString t).bind fun (key, t) =>
    (expect? (CodeUnit.of ':') (skipBlanks t)).bind fun t =>
    (readValue n t).bind fun (value, t) =>
      match skipBlanks t with
      | [] => none
      | u :: rest =>
        if u = CodeUnit.of '\x7d' then some ([(key, value)], rest)
        else if u = CodeUnit.of ',' then
          (readMembers n rest).map fun r => ((key, value) :: r.1, r.2)
        else none

end

/-- The value that a whole text writes, if it writes one. Two steps for each unit are enough. -/
def read? (t : Text) : Option Json :=
  match readValue (2 * t.length + 1) t with
  | some (value, rest) => if skipBlanks rest = [] then some value else none
  | none => none

end Json

end BrookSyntax
