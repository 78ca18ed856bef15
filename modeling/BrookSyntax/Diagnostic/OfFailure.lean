import BrookSyntax.Diagnostic
import BrookSyntax.Failure
import BrookSyntax.Source

namespace BrookSyntax

/-- A literal that is a word and not punctuation, by how it starts. -/
def Text.isWord (t : Text) : Bool := t.head?.any CodeUnit.isWordStart

/-- The kind of diagnostic for a cause. -/
def Cause.code : Cause → Code
  | literal text => if text.isWord then .expectedKeyword else .expectedPunctuation
  | token description =>
    if description = Text.ofString "identifier" then .expectedIdentifier
    else if description = Text.ofString "expression" then .expectedExpression
    else .expectedToken
  | endOfInput _ => .unexpectedEndOfInput
  | openBlock _ => .unterminatedBlock
  | alternatives _ => .noViableAlternative

/-- Missing punctuation is mended by adding it. -/
def Cause.fixIts (p : Position Binary64) : Cause → List FixIt
  | literal text =>
    if text.isWord then []
    else [{ description := "Add " ++ text.quoted, span := .point p, replacement := text }]
  | _ => []

variable {ν : Type} [Offset ν]

/-- The place that an offset has in a source, in double precision. -/
def Source.placeOf (s : Source) (offset : ν) : Position Binary64 :=
  (Offset.place s offset).map Numeric.number

/-- Points at the start of a construct that was being parsed. -/
def Frame.related (s : Source) (frame : Frame ν) : Related :=
  ⟨.point (s.placeOf frame.offset), "while parsing " ++ frame.label⟩

/-- The diagnostic of a failure: its description at its place, with one related place for each
construct that was being parsed. -/
def Diagnostic.ofFailure (f : Failure ν) (s : Source) : Diagnostic where
  severity := .error
  code := f.cause.code
  message := f.describe
  span := .point (s.placeOf f.offset)
  fixIts := f.cause.fixIts (s.placeOf f.offset)
  related := f.frames.map (·.related s)

/-- The draft of the diagnostic of a failure: its parts one by one, first the cause, then the
constructs that were being parsed. -/
def Draft.ofFailure (f : Failure ν) (s : Source) : Draft :=
  let p := s.placeOf f.offset
  let placed := ((error f.cause.code).setMessage f.describe).setPosition p
  let mended := (f.cause.fixIts p).foldl addFixIt placed
  f.frames.foldl (fun d frame => d.addRelated (frame.related s)) mended

end BrookSyntax
