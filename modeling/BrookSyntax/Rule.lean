import BrookSyntax.Grammar.Statement
import BrookSyntax.Rule.Depth
import BrookSyntax.Tree.Image

namespace BrookSyntax

/-- A test on what stands at a place: a unit, or nothing at the end of the source. -/
inductive UnitTest where
  | digit
  | wordStart
  | wordPart
  | space
  | oneOf (units : Text)
  | noneOf (units : Text)
deriving DecidableEq, Inhabited

def UnitTest.holds : UnitTest → Option CodeUnit → Bool
  | digit, u => u.any CodeUnit.isDigit
  | wordStart, u => u.any CodeUnit.isWordStart
  | wordPart, u => u.any CodeUnit.isWordPart
  | space, u => u.any CodeUnit.isSpace
  | oneOf units, u => u.any units.contains
  | noneOf units, u => !u.any units.contains

/-- The rules of the grammar that may be used by name. -/
inductive NamedRule where
  | spaces
  | trivia
  | endOfInput
  | identifier
  | expression
  | statement
  | block
  | conditional
  | whileLoop
  | loop
  | breakLoop
  | continueLoop
  | returnValue
  | letBinding
  | constBinding
  | function
  | expressionStatement
  | depth
deriving DecidableEq, Inhabited

/-- The parser of a rule of the grammar, with its value as JSON. -/
def NamedRule.parser (number : Int → Binary64) : NamedRule → Parser Json
  | spaces => (fun _ => .null) <$> Parser.spaces
  | trivia => (fun _ => .null) <$> Parser.trivia
  | endOfInput => (fun _ => .null) <$> Parser.endOfInput
  | identifier => .text <$> Grammar.identifier
  | expression => Expr.toJson <$> Grammar.expression
  | statement => Stmt.toJson <$> Grammar.statement
  | block => Block.toJson <$> Grammar.block
  | conditional => Stmt.toJson <$> Grammar.conditional
  | whileLoop => Stmt.toJson <$> Grammar.whileLoop
  | loop => Stmt.toJson <$> Grammar.loop
  | breakLoop => Stmt.toJson <$> Grammar.breakLoop
  | continueLoop => Stmt.toJson <$> Grammar.continueLoop
  | returnValue => Stmt.toJson <$> Grammar.returnValue
  | letBinding => Stmt.toJson <$> Grammar.letBinding
  | constBinding => Stmt.toJson <$> Grammar.constBinding
  | function => Stmt.toJson <$> Grammar.function
  | expressionStatement => Stmt.toJson <$> Grammar.expressionStmt
  | depth => (fun n => .number (number n)) <$> Parser.depth

/-- A parser as data, whose value is given as JSON. A reference may be to any definition, also to
the one it stands in. -/
inductive Rule where
  | named (rule : NamedRule)
  | ref (name : Text)
  | literal (text : Text)
  | keyword (word : Text)
  | literalBefore (text : Text) (forbidden : UnitTest)
  | satisfy (test : UnitTest) (description : Text)
  | takeWhile (test : UnitTest)
  | sequence (rules : List Rule)
  | first (a b : Rule)
  | second (a b : Rule)
  | between (a b c : Rule)
  | choice (rules : List Rule)
  | optional (rule : Rule)
  | many (rule : Rule)
  | sepBy (item separator : Rule)
  | withSpan (rule : Rule)
  | constant (rule : Rule) (value : Json)
  | consumed (rule : Rule)
  | labelled (label : Text) (rule : Rule)
  | committed (rule : Rule)
  | deeper (rule : Rule)
  | describedAs (description : Text) (rule : Rule)
  | statementsUntil (terminator : Rule) (expected : Text)
deriving Inhabited

/-- Why a rule cannot be run: a choice has nothing to choose from, or a definition refers to itself
without end. -/
inductive RuleFault where
  | emptyChoice
  | endless
deriving DecidableEq

def RuleFault.message : RuleFault → Text
  | emptyChoice => "alternation requires at least one parser"
  | endless => "Maximum call stack size exceeded"

/-- The cause that stands for a fault. -/
def RuleFault.cause : RuleFault → Cause
  | emptyChoice => .alternatives []
  | endless => .token "progress"

/-- Fails for a fault. The failure lies beyond the end of the source, where no other failure is. -/
def RuleFault.parser {α : Type} (fault : RuleFault) : Parser α := fun s _ =>
  .failed { cause := fault.cause, offset := s.length + 1, committed := true }

/-- The fault that a failure stands for. -/
def Failure.fault? (f : Failure) (s : Source) : Option RuleFault :=
  if f.offset ≤ s.length then none
  else
    match f.cause with
    | .alternatives _ => some .emptyChoice
    | _ => some .endless

namespace Rule

mutual

/-- Some choice in the rule has nothing to choose from. -/
def hasEmptyChoice : Rule → Bool
  | choice [] => true
  | choice (rule :: rules) => rule.hasEmptyChoice || anyEmptyChoice rules
  | sequence rules => anyEmptyChoice rules
  | first a b => a.hasEmptyChoice || b.hasEmptyChoice
  | second a b => a.hasEmptyChoice || b.hasEmptyChoice
  | between a b c => a.hasEmptyChoice || b.hasEmptyChoice || c.hasEmptyChoice
  | sepBy a b => a.hasEmptyChoice || b.hasEmptyChoice
  | optional rule | many rule | withSpan rule | constant rule _ | consumed rule
  | labelled _ rule | committed rule | deeper rule | describedAs _ rule
  | statementsUntil rule _ => rule.hasEmptyChoice
  | named _ | ref _ | literal _ | keyword _ | literalBefore _ _ | satisfy _ _ | takeWhile _ => false

def anyEmptyChoice : List Rule → Bool
  | [] => false
  | rule :: rest => rule.hasEmptyChoice || anyEmptyChoice rest

end

/-- The value together with the span of what was read. -/
def spannedValue (value : Json) (span : Span) : Json :=
  .object [("value", value), ("span", span.toJson)]

/-- What a rule is run with: the numbers of depths and the parsers of the definitions. -/
structure Context where
  number : Int → Binary64
  definition : Text → Parser Json

/-- The value of a parser, or none where it fails, unless the failure stands for a fault. -/
def attempt (p : Parser Json) : Parser (Option Json) := fun s c =>
  match p s c with
  | .ok d a => .ok d (some a)
  | .failed f => if (f.fault? s).isSome then .failed f else .ok c none

mutual

/-- The parser of a rule. -/
def parser (context : Context) : Rule → Parser Json
  | named rule => rule.parser context.number
  | ref name => context.definition name
  | literal text => .text <$> Parser.literal text
  | keyword word => .text <$> Parser.keyword word
  | literalBefore text forbidden => .text <$> Parser.literalBefore text forbidden.holds
  | satisfy test description => .text <$> Parser.satisfy (fun u => test.holds (some u)) description
  | takeWhile test => .text <$> Parser.takeWhile fun u => test.holds (some u)
  | sequence rules => .array <$> Parser.sequence (parsers context rules)
  | first a b => a.parser context <* b.parser context
  | second a b => a.parser context *> b.parser context
  | between a b c =>
    Parser.between (a.parser context) (b.parser context) (c.parser context)
  | choice rules => Parser.choice (parsers context rules)
  | optional rule => (·.getD .null) <$> Parser.optional (rule.parser context)
  | many rule => .array <$> Parser.many (rule.parser context)
  | sepBy item separator =>
    .array <$> Parser.sepBy (item.parser context) (separator.parser context)
  | withSpan rule => Parser.mapSpan (rule.parser context) spannedValue
  | constant rule value => (fun _ => value) <$> rule.parser context
  | consumed rule => .text <$> Parser.consumed (rule.parser context)
  | labelled label rule => Parser.labelled label (rule.parser context)
  | committed rule => Parser.committed (rule.parser context)
  | deeper rule => Parser.deeper (rule.parser context)
  | describedAs description rule => Parser.describedAs description (rule.parser context)
  | statementsUntil terminator expected =>
    (fun statements => .array (Stmt.allToJson statements)) <$>
      Grammar.statementsTo Grammar.statement (attempt (terminator.parser context)) expected

def parsers (context : Context) : List Rule → List (Parser Json)
  | [] => []
  | rule :: rest => rule.parser context :: parsers context rest

end

/-- The parser of a definition, in which a number of references may still be inside one another.
Where they run out, a definition refers to itself without end. A name without a definition is an
expectation that nothing meets. -/
def definition (number : Int → Binary64) (rules : List (Text × Rule)) : Nat → Text → Parser Json
  | 0, _ => RuleFault.endless.parser
  | n + 1, name => fun s c =>
    match rules.lookup name with
    | none => Parser.abort (.token name) s c
    | some rule =>
      if rule.hasEmptyChoice then RuleFault.emptyChoice.parser s c
      else rule.parser ⟨number, definition number rules n⟩ s c

/-- References can be inside one another without anything being read only as often as there are
definitions, at each offset and each depth. -/
def referenceLimit (rules : List (Text × Rule)) (s : Source) (c : Cursor) : Nat :=
  rules.length * (s.length + min c.room DepthScale.maxLevels + 2) + 1

end Rule

/-- Why a rule was not run. -/
inductive RunError where
  | fault (cause : RuleFault)
  | offset (error : OffsetError)

def RunError.message : RunError → Text
  | fault cause => cause.message
  | offset error => error.message

/-- Runs a rule on a source from an offset at a depth. A choice with nothing to choose from is found
in the rule itself before it is run, and in a definition when it is first used. -/
def Rule.run (rule : Rule) (rules : List (Text × Rule)) (s : Source) (offset : Binary64)
    (scale : DepthScale) : Except RunError (Result Json) :=
  if rule.hasEmptyChoice then .error (.fault .emptyChoice)
  else
    match s.cursor offset with
    | .error e => .error (.offset e)
    | .ok start =>
      let c := { start with depth := scale.base }
      let definition := definition scale.number rules (referenceLimit rules s c)
      match rule.parser ⟨scale.number, definition⟩ s c with
      | .ok d value => .ok (.ok d value)
      | .failed f =>
        match f.fault? s with
        | some fault => .error (.fault fault)
        | none => .ok (.failed f)

end BrookSyntax
