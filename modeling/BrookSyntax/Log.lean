import BrookSyntax.Config
import BrookSyntax.Json.Record
import BrookSyntax.Json.Writer

namespace BrookSyntax

/-- A source of log entries; those of at least the rank of its threshold are written. -/
structure Logger where
  component : Text
  threshold : Binary64 := Level.info.number
deriving DecidableEq, Inhabited

namespace Logger

/-- Entries of the rank are written. -/
def enablesRank (logger : Logger) (rank : Binary64) : Bool := logger.threshold ≤ rank

/-- Entries of the level are written. -/
def enables (logger : Logger) (level : Level) : Bool := logger.enablesRank level.number

/-- The members that every entry has. -/
def header (logger : Logger) (now : Text) (level : Level) (message : Text) : List (Text × Json) :=
  [("level", .text level.text), ("timestamp", .text now), ("component", .text logger.component),
    ("message", .text message)]

/-- The object of an entry. A field named like a member of the header replaces its value. -/
def entry (logger : Logger) (now : Text) (level : Level) (message : Text)
    (fields : List (Text × Json)) : Json :=
  .record (logger.header now level message ++ fields)

/-- The lines written for an entry: its object, or nothing if its level is not enabled. -/
def log (logger : Logger) (now : Text) (level : Level) (message : Text)
    (fields : List (Text × Json)) : List Text :=
  if logger.enables level then [(logger.entry now level message fields).write .compact] else []

end Logger

/-- How a parse went. -/
inductive Summary where
  | completed (file : Text) (statements duration : Binary64)
  | failed (file code : Text) (duration : Binary64) (trail : Option Text)

def Summary.message : Summary → Text
  | completed _ _ _ => "parse completed"
  | failed _ _ _ _ => "parse failed"

def Summary.fields : Summary → List (Text × Json)
  | completed file statements duration =>
    [("file", .text file), ("statements", .number statements), ("duration_ms", .number duration)]
  | failed file code duration none =>
    [("file", .text file), ("code", .text code), ("duration_ms", .number duration)]
  | failed file code duration (some trail) =>
    [("file", .text file), ("code", .text code), ("duration_ms", .number duration),
      ("trail", .text trail)]

/-- Logs how a parse went. -/
def Logger.summary (logger : Logger) (now : Text) (summary : Summary) : List Text :=
  logger.log now .debug summary.message summary.fields

/-- The logger of a component as it is configured. -/
def Config.logger (config : Config) (component : Text) : Logger := ⟨component, config.level.number⟩

/-- Logs how long a parse took. -/
def Config.logTiming (config : Config) (now file : Text) (duration : Binary64) : List Text :=
  (config.logger "performance").log now .info "parse completed"
    [("source", .text "parser"), ("file", .text file), ("duration_ms", .number duration)]

end BrookSyntax
