import BrookSyntax.Diagnostic
import BrookSyntax.Source
import BrookSyntax.Binary64.Shortest

namespace BrookSyntax

/-- The greatest number of units that a text may have. -/
def maxTextLength : Nat := 2 ^ 29 - 24

/-- Why a caret cannot be put into its column: a negative or infinite number of blanks would have to
stand before it, or more than a text may have. -/
inductive CaretError where
  | count (blanks : Binary64)
  | tooLong
deriving DecidableEq

def CaretError.message : CaretError → Text
  | count blanks => "Invalid count value: " ++ blanks.text
  | tooLong => "Invalid string length"

/-- As many blanks as a number counts; a part of one is left out. -/
def Text.blanksFor (n : Binary64) : Except CaretError Text :=
  if n.trunc < 0 ∨ !n.isFinite then .error (.count n)
  else if maxTextLength < n.trunc then .error .tooLong
  else .ok (blanks n.trunc.toNat)

namespace Diagnostic

/-- Severity, code, message and place. -/
def headline (d : Diagnostic) : Text :=
  d.severity.text ++ " " ++ d.code.text ++ ": " ++ d.message ++ " at " ++
    d.span.start.line.text ++ ":" ++ d.span.start.col.text

def fixLine (fixIt : FixIt) : Text :=
  "\n  - " ++ fixIt.description ++ ": \"" ++ fixIt.replacement ++ "\""

/-- The suggested fixes, one to a line. -/
def fixLines (d : Diagnostic) : Text :=
  if d.fixIts = [] then [] else "\n\nSuggested fixes:" ++ (d.fixIts.map fixLine).flatten

/-- A line of the source and the line under it with a caret in a column. -/
def caretLines (p : Position Binary64) (line : Text) : Except CaretError Text :=
  (Text.blanksFor (p.col - .ofNat 1)).map fun lead =>
    "\n> " ++ p.line.text ++ "| " ++ line ++
      "\n> " ++ Text.blanks p.line.text.length ++ "  " ++ lead ++ "^"

/-- The line of the diagnostic with a caret; nothing for an empty line or one that is not there. -/
def sourceLines (d : Diagnostic) (s : Source) : Except CaretError Text :=
  let line := s.lineAt d.span.start.line
  if line = [] then .ok [] else caretLines d.span.start line

/-- The text of a diagnostic without its source. -/
def format (d : Diagnostic) : Text := d.headline

/-- The text of a diagnostic with its source. -/
def formatIn (d : Diagnostic) (s : Source) : Except CaretError Text :=
  (d.sourceLines s).map fun lines => d.headline ++ d.fixLines ++ lines

end Diagnostic

end BrookSyntax
