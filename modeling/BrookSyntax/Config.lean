import BrookSyntax.Binary64

namespace BrookSyntax

/-- The levels of log entries, from the least to the most important. -/
inductive Level where
  | debug
  | info
  | warn
  | error
deriving DecidableEq, Inhabited

namespace Level

def all : List Level := [debug, info, warn, error]

def rank : Level → Nat
  | debug => 0
  | info => 1
  | warn => 2
  | error => 3

/-- The rank in double precision. -/
def number (level : Level) : Binary64 := .ofNat level.rank

def text : Level → Text
  | debug => "DEBUG"
  | info => "INFO"
  | warn => "WARN"
  | error => "ERROR"

/-- The level that a setting names, in letters of any case; every other setting means `info`. -/
def ofSetting (setting : Option Text) : Level :=
  match setting with
  | none => info
  | some name =>
    if name.toUpper = Text.ofString "DEBUG" then debug
    else if name.toUpper = Text.ofString "WARN" then warn
    else if name.toUpper = Text.ofString "ERROR" then error
    else info

end Level

/-- The variables that are set. -/
abbrev Environment := List (Text × Text)

namespace Environment

def get? (env : Environment) (key : Text) : Option Text := List.lookup key env

def unset (env : Environment) (key : Text) : Environment := env.filter (·.1 != key)

def set (env : Environment) (key value : Text) : Environment := (key, value) :: env.unset key

end Environment

/-- What is configured: the least level that is logged, and whether parsing is traced. -/
structure Config where
  level : Level := .info
  traceParser : Bool := false
deriving DecidableEq, Inhabited

/-- The configuration that an environment gives. -/
def Config.ofEnvironment (env : Environment) : Config where
  level := .ofSetting (env.get? "LOG_LEVEL")
  traceParser := env.get? "BROOK_DEBUG_PARSER" = some (Text.ofString "1")

/-- An environment and the configuration that was read from it, if any, with the number of readings
made so far. Later changes of the environment do not touch a configuration that has been read. -/
structure Settings where
  environment : Environment := []
  current : Option Config := none
  readings : Nat := 0
deriving Inhabited

namespace Settings

def setVariable (s : Settings) (key value : Text) : Settings :=
  { s with environment := s.environment.set key value }

def unsetVariable (s : Settings) (key : Text) : Settings :=
  { s with environment := s.environment.unset key }

/-- Gives up the configuration, so that the next use reads the environment again. -/
def reset (s : Settings) : Settings := { s with current := none }

/-- The configuration, read from the environment if there is none. -/
def load (s : Settings) : Config × Settings :=
  match s.current with
  | some config => (config, s)
  | none =>
    let config := Config.ofEnvironment s.environment
    (config, { s with current := some config, readings := s.readings + 1 })

end Settings

end BrookSyntax
