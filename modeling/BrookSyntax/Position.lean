import BrookSyntax.Text

namespace BrookSyntax

/-- A place in a text: line and column count from one, the offset from zero. -/
structure Position (ν : Type := Nat) where
  line : ν
  col : ν
  offset : ν
deriving DecidableEq, Inhabited

namespace Position

variable {ν μ : Type}

/-- The place with other numbers. -/
def map (f : ν → μ) (p : Position ν) : Position μ := ⟨f p.line, f p.col, f p.offset⟩

/-- The place before the first unit of a text. -/
def start : Position := ⟨1, 1, 0⟩

/-- The place one unit on: a newline leads to the first column of the next line. -/
def next (p : Position) (u : CodeUnit) : Position :=
  if u = CodeUnit.newline then ⟨p.line + 1, 1, p.offset + 1⟩
  else ⟨p.line, p.col + 1, p.offset + 1⟩

end Position

/-- The stretch of text from one place to another. -/
structure Span (ν : Type := Nat) where
  start : Position ν
  stop : Position ν
deriving DecidableEq, Inhabited

namespace Span

variable {ν μ : Type}

/-- The stretch with other numbers. -/
def map (f : ν → μ) (a : Span ν) : Span μ := ⟨a.start.map f, a.stop.map f⟩

/-- The empty stretch at a place. -/
def point (p : Position ν) : Span ν := ⟨p, p⟩

/-- The least stretch over two others; at equal offsets the first one's ends are kept. -/
def cover [LT ν] [DecidableLT ν] (a b : Span ν) : Span ν where
  start := if b.start.offset < a.start.offset then b.start else a.start
  stop := if a.stop.offset < b.stop.offset then b.stop else a.stop

/-- The least stretch over a stretch and a list of others. -/
def coverAll [LT ν] [DecidableLT ν] (first : Span ν) (rest : List (Span ν)) : Span ν :=
  rest.foldl cover first

end Span

end BrookSyntax
