import BrookSyntax.Json

namespace BrookSyntax

/-- The records that a document of a syntax tree is made of. -/
inductive Record where
  | document
  | metadata
  | position
  | span
  | program
  | block
  | conditional
  | whileLoop
  | loop
  | breakLoop
  | continueLoop
  | returnValue
  | binding
  | function
  | expression
  | number
  | string
  | bool
  | null
  | name
  | unary
  | binary
  | assign
  | call
deriving DecidableEq, Inhabited

/-- All records. -/
def Record.all : List Record :=
  [document, metadata, position, span, program, block, conditional, whileLoop, loop, breakLoop,
    continueLoop, returnValue, binding, function, expression, number, string, bool, null, name,
    unary, binary, assign, call]

/-- What a value may be. -/
inductive Shape where
  | constant (text : Text)
  | anyText (texts : List Text)
  | text (minLength : Nat)
  | number
  | integer (minimum : Int)
  | bool
  | record (record : Record)
  | oneRecord (records : List Record)
  | orNull (shape : Shape)
  | list (item : Shape)
deriving Inhabited

/-- A member that a record has or may have. -/
structure Field where
  name : Text
  shape : Shape
  required : Bool := true

/-- How a value departs from a shape. -/
inductive Fault where
  | notOfType (type : Text)
  | tooSmall (minimum : Int)
  | tooShort (minLength : Nat)
  | notConstant
  | notListed
  | matchesNotOne
  | lacks (name : Text)
  | hasMore
deriving DecidableEq, Inhabited

def Fault.message : Fault → Text
  | notOfType type => "must be " ++ type
  | tooSmall minimum => "must be >= " ++ Text.ofInt minimum
  | tooShort minLength => "must NOT have fewer than " ++ Text.ofInt minLength ++ " characters"
  | notConstant => "must be equal to constant"
  | notListed => "must be equal to one of the allowed values"
  | matchesNotOne => "must match exactly one schema in oneOf"
  | lacks name => "must have required property " ++ name.quoted
  | hasMore => "must NOT have additional properties"

/-- The keys and indices that lead to a value from an outer one. -/
abbrev Path := List Text

/-- The path as text; the outermost value is at a slash. -/
def Path.text (path : Path) : Text :=
  if path = [] then "/" else (path.map fun step => CodeUnit.of '/' :: step).flatten

/-- A fault and the path to the value that has it. -/
structure Violation where
  path : Path
  fault : Fault
deriving DecidableEq, Inhabited

namespace Violation

def message (v : Violation) : Text := Path.text v.path ++ " " ++ v.fault.message

/-- The violation as it is seen from one step further out. -/
def under (step : Text) (v : Violation) : Violation := { v with path := step :: v.path }

/-- The deeper one of two violations that may be there, the first one if they are equally deep. -/
def deeper : Option Violation → Option Violation → Option Violation
  | none, b => b
  | some a, none => some a
  | some a, some b => if a.path.length < b.path.length then some b else some a

/-- The deepest one of some violations that may be there, the first one of those equally deep. -/
def deepest (violations : List (Option Violation)) : Option Violation :=
  violations.foldr deeper none

end Violation

/-- The deepest violation that a value has of each shape, or none if it has that shape. -/
structure Verdict where
  of : Shape → Option Violation

/-- What is known of the records that a value may be; each entry is worked out once at most. -/
abbrev RecordVerdicts := List (Record × Thunk (Option Violation))

namespace Layer

/-- A fault of the value itself. -/
def fault (fault : Fault) : Option Violation := some ⟨[], fault⟩

/-- Every item of an array, each at its index. -/
def itemViolations (item : Shape) : Nat → List Verdict → List (Option Violation)
  | _, [] => []
  | i, verdict :: rest =>
    (verdict.of item).map (.under (Text.ofNat i)) :: itemViolations item (i + 1) rest

/-- The members that are missing. -/
def missing (fields : List Field) (members : List (Text × Verdict)) : List (Option Violation) :=
  (fields.filter fun field => field.required && (members.lookup field.name).isNone).map
    fun field => fault (.lacks field.name)

/-- The members that are no fields. -/
def excess (fields : List Field) (members : List (Text × Verdict)) : List (Option Violation) :=
  (members.filter fun member => !(fields.map Field.name).contains member.1).map
    fun _ => fault .hasMore

/-- The members that are fields, in the order of the fields. -/
def present (fields : List Field) (members : List (Text × Verdict)) : List (Option Violation) :=
  fields.map fun field =>
    (members.lookup field.name).bind fun verdict =>
      (verdict.of field.shape).map (.under field.name)

/-- A value against the fields of a record. -/
def ofRecord (layer : Layer Verdict) (fields : List Field) : Option Violation :=
  match layer with
  | object members =>
    Violation.deepest (missing fields members ++ excess fields members ++ present fields members)
  | _ => fault (.notOfType "object")

/-- The verdict on a record, as far as it is known. -/
def verdictOn (verdicts : RecordVerdicts) (record : Record) : Option Violation :=
  (verdicts.lookup record).bind Thunk.get

/-- A value against a shape, given what is known of the records that it may be. -/
def ofShape (layer : Layer Verdict) (verdicts : RecordVerdicts) : Shape → Option Violation
  | .constant expected =>
    match layer with
    | text value => if value = expected then none else fault .notConstant
    | _ => fault .notConstant
  | .anyText texts =>
    match layer with
    | text value => if texts.contains value then none else fault .notListed
    | _ => fault .notListed
  | .text minLength =>
    match layer with
    | text value => if value.length < minLength then fault (.tooShort minLength) else none
    | _ => fault (.notOfType "string")
  | .number =>
    match layer with
    | number value => if value.isFinite then none else fault (.notOfType "number")
    | _ => fault (.notOfType "number")
  | .integer minimum =>
    match layer with
    | number value =>
      if value.toInt?.isNone then fault (.notOfType "integer")
      else if value.lessThanInt minimum then fault (.tooSmall minimum)
      else none
    | _ => fault (.notOfType "integer")
  | .bool =>
    match layer with
    | bool _ => none
    | _ => fault (.notOfType "boolean")
  | .record record => verdictOn verdicts record
  | .oneRecord records =>
    let branches := records.map (verdictOn verdicts)
    if (branches.filter Option.isNone).length = 1 then none
    else Violation.deepest (branches ++ [fault .matchesNotOne])
  | .orNull shape =>
    match layer with
    | null => none
    | _ => ofShape layer verdicts shape
  | .list item =>
    match layer with
    | array items => Violation.deepest (itemViolations item 0 items)
    | _ => fault (.notOfType "array")

/-- The verdict on a value from the verdicts on the values inside it. -/
def verdict (fields : Record → List Field) (layer : Layer Verdict) : Verdict :=
  let verdicts : RecordVerdicts :=
    Record.all.map fun record => (record, Thunk.mk fun _ => layer.ofRecord (fields record))
  ⟨layer.ofShape verdicts⟩

end Layer

/-- The deepest violation of a shape in a value, the first one of those equally deep: for one value
its own type and limits come first, then what it lacks, what it has too much, and its parts, in the
order of the shape. -/
def Json.violation? (fields : Record → List Field) (value : Json) (shape : Shape) :
    Option Violation :=
  (value.fold (Layer.verdict fields)).of shape

end BrookSyntax
