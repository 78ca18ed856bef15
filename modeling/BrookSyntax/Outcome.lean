import BrookSyntax.Diagnostic.OfFailure
import BrookSyntax.Grammar.Statement
import BrookSyntax.Log

namespace BrookSyntax

/-- Parses a source from an offset on. -/
def Source.parse (s : Source) (offset : Double) : Except OffsetError (Result Program) :=
  (s.cursor offset).map fun c => Grammar.program s c

/-- What time it is and how long the parse took, in milliseconds. -/
structure Clock where
  now : Text
  elapsed : Binary64

/-- What comes of a parse: the tree or diagnostics, the place where it ended, and the log lines. -/
structure Outcome where
  tree : Option Program
  diagnostics : List Diagnostic
  stop : Position
  logs : List Text

/-- The log lines about a parse. -/
def Result.logs (result : Result Program) (s : Source) (file : Text) (config : Config)
    (clock : Clock) : List Text :=
  let logger := config.logger "parser"
  let summary :=
    match result with
    | .ok _ program => .completed file (.ofNat program.statements.length) clock.elapsed
    | .failed f =>
      .failed file (Diagnostic.ofFailure f s).code.text clock.elapsed
        (if config.traceParser && logger.enables .debug then some f.render else none)
  (if config.traceParser then config.logTiming clock.now file clock.elapsed else []) ++
    logger.summary clock.now summary

/-- Parses a source from an offset on; a syntax error gives a diagnostic. -/
def Source.outcome (s : Source) (offset : Double) (file : Option Text) (config : Config)
    (clock : Clock) : Except OffsetError Outcome :=
  (s.parse offset).map fun result =>
    let logs := result.logs s (file.getD "<input>") config clock
    match result with
    | .ok d program =>
      { tree := some program, diagnostics := [], stop := s.position d.offset, logs }
    | .failed f =>
      { tree := none, diagnostics := [.ofFailure f s], stop := s.position f.offset, logs }

/-- Why there is no tree. -/
inductive ParseError where
  | offset (error : OffsetError)
  | rejected (diagnostic : Diagnostic)

/-- Parses a source from an offset on; a syntax error is an error. -/
def Source.tree (s : Source) (offset : Double) : Except ParseError Program :=
  match s.parse offset with
  | .error e => .error (.offset e)
  | .ok (.ok _ program) => .ok program
  | .ok (.failed f) => .error (.rejected (.ofFailure f s))

end BrookSyntax
