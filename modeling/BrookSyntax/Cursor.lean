import BrookSyntax.Source
import BrookSyntax.Binary64.Shortest

namespace BrookSyntax

/-- The depth at which no further construct may be opened inside the others. -/
def maxDepth : Int := 128

/-- A place in a source and the depth of nesting there. -/
structure Cursor where
  offset : Nat
  depth : Int
deriving DecidableEq, Inhabited

namespace Cursor

/-- The number of constructs that may still be opened inside one another. -/
def room (c : Cursor) : Nat := (maxDepth - c.depth).toNat

/-- The cursor `n` units on, never beyond the end. -/
def advance (c : Cursor) (s : Source) (n : Nat) : Cursor :=
  { c with offset := min (c.offset + n) s.length }

/-- Nothing is left to read. -/
def atEnd (c : Cursor) (s : Source) : Bool := s.length ≤ c.offset

/-- The next unit. -/
def peek? (c : Cursor) (s : Source) : Option CodeUnit := s.unit? c.offset

/-- The stretch from one cursor to another. -/
def spanTo (c d : Cursor) (s : Source) : Span := ⟨s.position c.offset, s.position d.offset⟩

/-- The text from one cursor to another. -/
def sliceTo (c d : Cursor) (s : Source) : Text := s.slice c.offset d.offset

end Cursor

/-- A start offset that is not a whole number from zero to the length of the source. -/
structure OffsetError where
  offset : Double
  length : Nat
deriving DecidableEq

def OffsetError.message (e : OffsetError) : Text :=
  "Cursor offset " ++ e.offset.text ++ " is outside the source (length " ++
    Text.ofInt e.length ++ ")"

/-- The cursor at an offset, outside all nested constructs. -/
def Source.cursor (s : Source) (offset : Double) : Except OffsetError Cursor :=
  match offset.toInt? with
  | some i => if 0 ≤ i ∧ i ≤ s.length then .ok ⟨i.toNat, 0⟩ else .error ⟨offset, s.length⟩
  | none => .error ⟨offset, s.length⟩

end BrookSyntax
