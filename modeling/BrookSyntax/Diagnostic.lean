import BrookSyntax.Binary64
import BrookSyntax.Position

namespace BrookSyntax

/-- How grave a diagnostic is. -/
inductive Severity where
  | error
  | warning
  | info
  | hint
deriving DecidableEq, Inhabited

namespace Severity

def all : List Severity := [error, warning, info, hint]

/-- The severity as it is written. -/
def text : Severity → Text
  | error => "error"
  | warning => "warning"
  | info => "info"
  | hint => "hint"

/-- The severity by its title. -/
def title : Severity → Text
  | error => "Error"
  | warning => "Warning"
  | info => "Info"
  | hint => "Hint"

end Severity

/-- The kinds of diagnostics: those of parsing and those of reading trees. -/
inductive Code where
  | expectedIdentifier
  | expectedToken
  | expectedKeyword
  | expectedPunctuation
  | expectedExpression
  | unexpectedEndOfInput
  | unterminatedBlock
  | noViableAlternative
  | invalidTree
  | unsupportedVersion
deriving DecidableEq, Inhabited

namespace Code

def all : List Code :=
  [expectedIdentifier, expectedToken, expectedKeyword, expectedPunctuation, expectedExpression,
    unexpectedEndOfInput, unterminatedBlock, noViableAlternative, invalidTree, unsupportedVersion]

/-- The letter and number of a code. -/
def text : Code → Text
  | expectedIdentifier => "P001"
  | expectedToken => "P003"
  | expectedKeyword => "P004"
  | expectedPunctuation => "P006"
  | expectedExpression => "P007"
  | unexpectedEndOfInput => "P012"
  | unterminatedBlock => "P015"
  | noViableAlternative => "P016"
  | invalidTree => "A001"
  | unsupportedVersion => "A002"

/-- The letter and number of a code with its meaning. -/
def title : Code → Text
  | expectedIdentifier => "P001_ExpectedIdentifier"
  | expectedToken => "P003_ExpectedToken"
  | expectedKeyword => "P004_ExpectedKeyword"
  | expectedPunctuation => "P006_ExpectedPunctuation"
  | expectedExpression => "P007_ExpectedExpression"
  | unexpectedEndOfInput => "P012_UnexpectedEndOfInput"
  | unterminatedBlock => "P015_UnterminatedBlock"
  | noViableAlternative => "P016_NoViableAlternative"
  | invalidTree => "A001_InvalidAstJson"
  | unsupportedVersion => "A002_UnsupportedAstVersion"

end Code

/-- A change of the text that would mend it. -/
structure FixIt where
  description : Text
  span : Span Binary64
  replacement : Text
deriving DecidableEq, Inhabited

/-- Another place that has to do with a diagnostic. -/
structure Related where
  span : Span Binary64
  message : Text
deriving DecidableEq, Inhabited

/-- A report on a text. -/
structure Diagnostic where
  severity : Severity
  code : Code
  message : Text
  span : Span Binary64
  fixIts : List FixIt := []
  related : List Related := []
deriving DecidableEq, Inhabited

/-- A diagnostic under construction. -/
structure Draft where
  severity : Severity := .error
  code : Option Code := none
  message : Option Text := none
  span : Option (Span Binary64) := none
  fixIts : List FixIt := []
  related : List Related := []
deriving DecidableEq, Inhabited

/-- The part that a draft lacks. -/
inductive DraftError where
  | missingCode
  | missingMessage
  | missingSpan
deriving DecidableEq

def DraftError.message : DraftError → Text
  | missingCode => "Diagnostic code is required"
  | missingMessage => "Diagnostic message is required"
  | missingSpan => "Diagnostic span is required"

namespace Draft

/-- An error of a kind. -/
def error (code : Code) : Draft := { code := some code }

def setSeverity (d : Draft) (severity : Severity) : Draft := { d with severity }

def setCode (d : Draft) (code : Code) : Draft := { d with code := some code }

def setMessage (d : Draft) (message : Text) : Draft := { d with message := some message }

def setPosition (d : Draft) (p : Position Binary64) : Draft := { d with span := some (.point p) }

def addFixIt (d : Draft) (fixIt : FixIt) : Draft := { d with fixIts := d.fixIts ++ [fixIt] }

def addRelated (d : Draft) (related : Related) : Draft :=
  { d with related := d.related ++ [related] }

/-- The diagnostic, if the draft has a code, a message that is not empty, and a span; the first part
that it lacks is the error. -/
def build (d : Draft) : Except DraftError Diagnostic :=
  match d.code, d.message, d.span with
  | none, _, _ => .error .missingCode
  | _, none, _ => .error .missingMessage
  | _, some [], _ => .error .missingMessage
  | _, _, none => .error .missingSpan
  | some code, some message, some span =>
    let { severity, fixIts, related, .. } := d
    .ok { severity, code, message, span, fixIts, related }

/-- The draft of an error that is not in any text. -/
def unplaced (code : Code) (message : Text) : Draft :=
  ((error code).setMessage message).setPosition (Position.start.map .ofNat)

/-- The draft of a report that a tree cannot be read. -/
def invalidTree (detail : Text) : Draft :=
  unplaced .invalidTree ("Invalid AST JSON: " ++ detail)

/-- The draft of a report that a tree is written in a version that is not known. -/
def unsupportedVersion (version : Text) : Draft :=
  unplaced .unsupportedVersion ("Unsupported AST JSON version: " ++ version)

end Draft

end BrookSyntax
