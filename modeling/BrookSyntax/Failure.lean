import BrookSyntax.Binary64.Shortest

namespace BrookSyntax

/-- What stopped a parser. -/
inductive Cause where
  | literal (text : Text)
  | token (description : Text)
  | endOfInput (expected : Text)
  | openBlock (expected : Text)
  | alternatives (causes : List Cause)
deriving Inhabited

namespace Cause

mutual

/-- The causes that are not made of alternatives, from left to right. -/
def leaves : Cause → List Cause
  | literal text => [literal text]
  | token description => [token description]
  | endOfInput expected => [endOfInput expected]
  | openBlock expected => [openBlock expected]
  | alternatives causes => flatten causes

/-- The leaves of a list of causes. -/
def flatten : List Cause → List Cause
  | [] => []
  | cause :: rest => cause.leaves ++ flatten rest

end

theorem flatten_append (a b : List Cause) : flatten (a ++ b) = flatten a ++ flatten b := by
  induction a with
  | nil => rfl
  | cons cause rest ih => simp [flatten, ih]

mutual

/-- The things that would have been accepted, each named once. -/
def expectations : Cause → List Text
  | literal text => [text.quoted]
  | token description => [description]
  | endOfInput expected => [expected.quoted]
  | openBlock expected => [expected.quoted]
  | alternatives causes => (allExpectations causes).eraseDups

/-- The expectations of a list of causes, one after the other. -/
def allExpectations : List Cause → List Text
  | [] => []
  | cause :: rest => cause.expectations ++ allExpectations rest

end

/-- The cause in words. -/
def describe : Cause → Text
  | literal text => "expected " ++ text.quoted
  | token description => "expected " ++ description
  | endOfInput expected => "unexpected end of input, expected " ++ expected.quoted
  | openBlock expected => "unterminated block, expected " ++ expected.quoted
  | alternatives causes => "expected one of " ++ Text.join ", " (alternatives causes).expectations

end Cause

/-- A construct that was being parsed and the offset where it starts. -/
structure Frame (ν : Type := Nat) where
  label : Text
  offset : ν
deriving DecidableEq, Inhabited

/-- A failed attempt to parse; its frames run from the innermost construct outwards. A committed
failure is not mended by trying something else. -/
structure Failure (ν : Type := Nat) where
  cause : Cause
  offset : ν
  frames : List (Frame ν) := []
  committed : Bool := false
deriving Inhabited

namespace Failure

variable {ν : Type}

/-- The failure inside one more construct. -/
def within (f : Failure ν) (label : Text) (offset : ν) : Failure ν :=
  { f with frames := f.frames ++ [⟨label, offset⟩] }

/-- The failure once the parser has settled on what failed. -/
def asCommitted (f : Failure ν) : Failure ν := { f with committed := true }

/-- The construct closest to the failure. -/
def innermost? (f : Failure ν) : Option (Frame ν) := f.frames.head?

/-- The labels from the outermost construct inwards, then the cause. -/
def describe (f : Failure ν) : Text :=
  Text.join ": " (f.frames.reverse.map Frame.label ++ [f.cause.describe])

/-- The description with the place of the failure. -/
def render [Numeric ν] (f : Failure ν) : Text :=
  f.describe ++ " at offset " ++ (Numeric.number f.offset).text

end Failure

end BrookSyntax
