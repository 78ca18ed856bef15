import BrookSyntax.Cursor

namespace BrookSyntax

/-- A place in a source, or before its start, and any number as the depth of nesting there. -/
structure Mark where
  offset : Binary64
  depth : Binary64
deriving DecidableEq, Inhabited

namespace Mark

/-- The mark at a cursor. -/
def ofCursor (c : Cursor) : Mark := ⟨.ofNat c.offset, .ofInt c.depth⟩

/-- The mark `n` units on, or back where `n` is negative, never beyond the end. A step of zero keeps
the mark as it is. -/
def advance (m : Mark) (s : Source) (n : Binary64) : Mark :=
  if n.isZero then m else { m with offset := min (m.offset + n) (.ofNat s.length) }

def withDepth (m : Mark) (depth : Binary64) : Mark := { m with depth }

/-- Nothing is left to read. -/
def atEnd (m : Mark) (s : Source) : Bool := .ofNat s.length ≤ m.offset

/-- The unit a number of places ahead. -/
def peek? (m : Mark) (s : Source) (ahead : Binary64) : Option CodeUnit :=
  let i := (m.offset + ahead).trunc
  if i < 0 then none else s.unit? i.toNat

/-- The text `t` stands at the mark, taken to the nearest end of the source where it is outside. -/
def hasText (m : Mark) (s : Source) (t : Text) : Bool :=
  s.hasAt (min m.offset.trunc.toNat s.length) t

def place (m : Mark) (s : Source) : Position Binary64 := s.place m.offset

/-- The offset that a number means at which the source is cut: a negative one counts back from the
end. -/
def cutOffset (s : Source) (x : Binary64) : Nat :=
  if x.trunc < 0 then (s.length + x.trunc).toNat else min x.trunc.toNat s.length

/-- The text from one mark to another; none if the second comes first. -/
def sliceTo (m n : Mark) (s : Source) : Text :=
  s.slice (cutOffset s m.offset) (cutOffset s n.offset)

/-- The text from the mark on. -/
def rest (m : Mark) (s : Source) : Text := s.slice (cutOffset s m.offset) s.length

def spanTo (m n : Mark) (s : Source) : Span Binary64 := ⟨m.place s, n.place s⟩

end Mark

end BrookSyntax
