import BrookSyntax.Json
import BrookSyntax.Tree

namespace BrookSyntax

/-- What a JSON value may be read as. -/
structure Reading where
  isNull : Bool := false
  bool? : Option Bool := none
  number? : Option Binary64 := none
  nat? : Option Nat := none
  text? : Option Text := none
  texts? : Option (List Text) := none
  position? : Option Position := none
  span? : Option Span := none
  name? : Option Name := none
  expr? : Option Expr := none
  exprs? : Option (List Expr) := none
  block? : Option Block := none
  stmt? : Option Stmt := none
  stmts? : Option (List Stmt) := none
  program? : Option Program := none
deriving Inhabited

namespace Reading

variable {α : Type}

/-- The member under a key, read in one way. -/
def get (members : List (Text × Reading)) (key : Text) (read : Reading → Option α) : Option α :=
  (members.lookup key).bind read

/-- The reading of a value that may be null. -/
def orNull (read : Reading → Option α) (r : Reading) : Option (Option α) :=
  if r.isNull then some none else (read r).map some

def unaryOp? (r : Reading) : Option UnaryOp :=
  r.text?.bind fun symbol => UnaryOp.all.find? fun op => op.symbol = symbol

def binaryOp? (r : Reading) : Option BinaryOp :=
  r.text?.bind fun symbol => BinaryOp.all.find? fun op => op.symbol = symbol

def positionOf (members : List (Text × Reading)) : Option Position := do
  let line ← get members "line" nat?
  let col ← get members "col" nat?
  let offset ← get members "offset" nat?
  pure ⟨line, col, offset⟩

def spanOf (members : List (Text × Reading)) : Option Span := do
  let start ← get members "start" position?
  let stop ← get members "end" position?
  pure ⟨start, stop⟩

/-- The span of a node of a kind. -/
def nodeSpan (kind : Text) (members : List (Text × Reading)) : Option Span := do
  let found ← get members "kind" text?
  if found = kind then get members "span" span? else none

def nameOf (members : List (Text × Reading)) : Option Name := do
  let span ← nodeSpan "Name" members
  let text ← get members "name" text?
  pure ⟨text, span⟩

/-- The first of some readings that succeeds. -/
def firstOf (readings : List (Option α)) : Option α := readings.findSome? id

def exprOf (members : List (Text × Reading)) : Option Expr :=
  firstOf [
    do
      let span ← nodeSpan "Number" members
      pure (.number (← get members "value" number?) span),
    do
      let span ← nodeSpan "String" members
      pure (.string (← get members "value" text?) span),
    do
      let span ← nodeSpan "Bool" members
      pure (.bool (← get members "value" bool?) span),
    do
      let span ← nodeSpan "Null" members
      pure (.null span),
    (nameOf members).map .name,
    do
      let span ← nodeSpan "Unary" members
      let op ← get members "operator" unaryOp?
      pure (.unary op (← get members "operand" expr?) span),
    do
      let span ← nodeSpan "Binary" members
      let op ← get members "operator" binaryOp?
      let left ← get members "left" expr?
      pure (.binary op left (← get members "right" expr?) span),
    do
      let span ← nodeSpan "Assign" members
      let target ← get members "target" name?
      pure (.assign target (← get members "value" expr?) span),
    do
      let span ← nodeSpan "Call" members
      let callee ← get members "callee" expr?
      pure (.call callee (← get members "args" exprs?) span)]

def blockOf (members : List (Text × Reading)) : Option Block := do
  let span ← nodeSpan "Block" members
  pure (.mk (← get members "statements" stmts?) span)

def stmtOf (members : List (Text × Reading)) : Option Stmt :=
  firstOf [
    (blockOf members).map .block,
    do
      let span ← nodeSpan "If" members
      let condition ← get members "condition" expr?
      let thenBlock ← get members "thenBlock" block?
      pure (.conditional condition thenBlock (← get members "elseBlock" (orNull block?)) span),
    do
      let span ← nodeSpan "While" members
      let condition ← get members "condition" expr?
      pure (.whileLoop condition (← get members "body" block?) span),
    do
      let span ← nodeSpan "Loop" members
      pure (.loop (← get members "body" block?) span),
    (nodeSpan "Break" members).map .breakLoop,
    (nodeSpan "Continue" members).map .continueLoop,
    do
      let span ← nodeSpan "Return" members
      pure (.returnValue (← get members "value" (orNull expr?)) span),
    do
      let span ← nodeSpan "Let" members
      let name ← get members "name" text?
      let isMutable ← get members "mutable" bool?
      pure (.binding name isMutable (← get members "init" (orNull expr?)) span),
    do
      let span ← nodeSpan "Func" members
      let name ← get members "name" text?
      let params ← get members "params" texts?
      pure (.function name params (← get members "body" block?) span),
    do
      let span ← nodeSpan "ExprStmt" members
      pure (.expression (← get members "expression" expr?) span)]

def programOf (members : List (Text × Reading)) : Option Program := do
  let span ← nodeSpan "Program" members
  pure ⟨← get members "statements" stmts?, span⟩

/-- All readings of a value from the readings of the values inside it. -/
def ofLayer : Layer Reading → Reading
  | .null => { isNull := true }
  | .bool value => { bool? := some value }
  | .number value => { number? := some value, nat? := value.toInt?.bind Int.toNat? }
  | .text value => { text? := some value }
  | .array items =>
    { texts? := items.mapM text?
      exprs? := items.mapM expr?
      stmts? := items.mapM stmt? }
  | .object members =>
    { position? := positionOf members
      span? := spanOf members
      name? := nameOf members
      expr? := exprOf members
      block? := blockOf members
      stmt? := stmtOf members
      program? := programOf members }

end Reading

/-- The program that a JSON value is the image of. -/
def Program.ofJson? (value : Json) : Option Program := (value.fold Reading.ofLayer).program?

end BrookSyntax
