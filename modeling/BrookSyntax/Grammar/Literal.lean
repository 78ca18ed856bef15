import BrookSyntax.Grammar.Word
import BrookSyntax.Parser.Choice

namespace BrookSyntax

/-- The number that a decimal text writes: digits, and perhaps a point and more digits. -/
def Binary64.ofNumeral (text : Text) : Binary64 :=
  let whole := text.takeWhile CodeUnit.isDigit
  let fraction := (text.dropWhile CodeUnit.isDigit).drop 1
  ofDecimal false (Text.toNat (whole ++ fraction)) (-fraction.length)

/-- The unit that an escape sequence stands for, by the unit after its backslash. -/
def escapeValue? (u : CodeUnit) : Option CodeUnit :=
  if u = CodeUnit.of 'n' then some (CodeUnit.of '\n')
  else if u = CodeUnit.of 't' then some (CodeUnit.of '\t')
  else if u = CodeUnit.of 'r' then some (CodeUnit.of '\r')
  else if u = CodeUnit.quote then some CodeUnit.quote
  else if u = CodeUnit.backslash then some CodeUnit.backslash
  else if u = CodeUnit.of '0' then some 0
  else none

/-- Reads the inside of a string from an offset to its closing quote, over at most a given number of
steps: the value and the offset after the quote, or a committed failure. -/
def Source.stringFrom (s : Source) : Nat → Nat → Except Failure (Text × Nat)
  | 0, i => .error { cause := .endOfInput "\"", offset := i, committed := true }
  | n + 1, i =>
    match s.unit? i with
    | none => .error { cause := .endOfInput "\"", offset := i, committed := true }
    | some u =>
      if u = CodeUnit.quote then .ok ([], i + 1)
      else if u = CodeUnit.backslash then
        match (s.unit? (i + 1)).bind escapeValue? with
        | none => .error { cause := .token "escape sequence", offset := i + 1, committed := true }
        | some v =>
          match s.stringFrom n (i + 2) with
          | .ok (rest, j) => .ok (v :: rest, j)
          | .error f => .error f
      else
        match s.stringFrom n (i + 1) with
        | .ok (rest, j) => .ok (u :: rest, j)
        | .error f => .error f

namespace Grammar

open BrookSyntax.Parser

/-- Digits, and perhaps a point and more digits. -/
def numeral : Parser Text :=
  consumed (satisfy CodeUnit.isDigit "number" *> takeWhile CodeUnit.isDigit *>
    optional (literal "." *> satisfy CodeUnit.isDigit "digit" *> takeWhile CodeUnit.isDigit))

/-- A number; one too large to be finite is refused. -/
def number : Parser Expr := fun s c =>
  match numeral s c with
  | .failed f => .failed f
  | .ok d text =>
    let value := Binary64.ofNumeral text
    if value.isFinite then .ok d (.number value (c.spanTo d s))
    else abort (.token "finite number") s c

/-- A string between double quotes; once it is opened, its failures are committed. -/
def string : Parser Expr := fun s c =>
  if c.peek? s = some CodeUnit.quote then
    match s.stringFrom (s.length - c.offset) (c.offset + 1) with
    | .ok (value, j) =>
      let d := { c with offset := j }
      .ok d (.string value (c.spanTo d s))
    | .error f => .failed f
  else fail (.token "string") s c

/-- A truth value or the null value. -/
def constant : Parser Expr :=
  choice [
    mapSpan (keyword "true") fun _ span => .bool true span,
    mapSpan (keyword "false") fun _ span => .bool false span,
    mapSpan (keyword "null") fun _ span => .null span]

end Grammar

end BrookSyntax
