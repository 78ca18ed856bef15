import BrookSyntax.Parser

namespace BrookSyntax

namespace Parser

variable {α : Type}

/-- Adds a frame for the construct to every failure. -/
def labelled (label : Text) (p : Parser α) : Parser α := fun s c =>
  match p s c with
  | .ok d a => .ok d a
  | .failed f => .failed (f.within label c.offset)

/-- Commits every failure. -/
def committed (p : Parser α) : Parser α := fun s c =>
  match p s c with
  | .ok d a => .ok d a
  | .failed f => .failed f.asCommitted

/-- The failure to open one construct more than may be nested. -/
def tooDeep : Parser α := abort (.token "nesting depth <= 128")

/-- Runs a parser one level further in and comes back to the level of the start. -/
def deeper (p : Parser α) : Parser α := fun s c =>
  if maxDepth ≤ c.depth then tooDeep s c
  else
    match p s { c with depth := c.depth + 1 } with
    | .ok d a => .ok { d with depth := c.depth } a
    | .failed f => .failed f

/-- Names what is expected here: failures that are not committed and did not get beyond the start
are replaced by that one expectation. -/
def describedAs (description : Text) (p : Parser α) : Parser α := fun s c =>
  match p s c with
  | .ok d a => .ok d a
  | .failed f =>
    if f.committed || c.offset < f.offset then .failed f
    else .failed { cause := .token description, offset := c.offset }

end Parser

end BrookSyntax
