import BrookSyntax.Cursor

namespace BrookSyntax

/-- The depth some levels further in. -/
def Binary64.deeper (start : Binary64) : Nat → Binary64
  | 0 => start
  | n + 1 => deeper (start + .ofNat 1) n

/-- The number of levels, at most as many as given, after which the greatest depth is reached. -/
def Binary64.levels? (start : Binary64) : Nat → Option Nat
  | 0 => if .ofInt maxDepth ≤ start then some 0 else none
  | n + 1 =>
    if .ofInt maxDepth ≤ start then some 0 else ((start + .ofNat 1).levels? n).map (· + 1)

/-- A depth as a number and the integer that stands for it. Each level adds one to the number in
double precision; the integers reach the greatest depth after as many levels. -/
structure DepthScale where
  start : Binary64
  base : Int
deriving DecidableEq, Inhabited

namespace DepthScale

/-- The number of levels that are told apart. -/
def maxLevels : Nat := 5000

/-- The scale of a depth at the start. A depth with more levels than are told apart is one that no
nesting brings to an end. -/
def ofStart (start : Binary64) : DepthScale where
  start := start
  base := maxDepth - ((start.levels? maxLevels).getD (2 ^ 64) : Nat)

/-- The number of a depth, from the start on. -/
def number (scale : DepthScale) (depth : Int) : Binary64 :=
  scale.start.deeper (depth - scale.base).toNat

end DepthScale

end BrookSyntax
