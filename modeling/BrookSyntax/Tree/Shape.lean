import BrookSyntax.Shape
import BrookSyntax.Tree

namespace BrookSyntax

/-- The records of statements. -/
def Record.statements : List Record :=
  [block, conditional, whileLoop, loop, breakLoop, continueLoop, returnValue, binding, function,
    expression]

/-- The records of expressions. -/
def Record.expressions : List Record :=
  [number, string, bool, null, name, unary, binary, assign, call]

/-- Any statement. -/
def Shape.statement : Shape := .oneRecord Record.statements

/-- Any expression. -/
def Shape.expression : Shape := .oneRecord Record.expressions

namespace Record

/-- The fields of a node: its kind first, its span last. -/
def nodeFields (kind : Text) (fields : List Field) : List Field :=
  { name := "kind", shape := .constant kind } :: fields ++
    [{ name := "span", shape := .record .span }]

/-- The fields of a record, in the order in which they are checked. -/
def fields : Record → List Field
  | document =>
    [{ name := "version", shape := .constant "1.0" },
      { name := "program", shape := .record program },
      { name := "metadata", shape := .record metadata, required := false }]
  | metadata =>
    [{ name := "generatedAt", shape := .text 0, required := false },
      { name := "source", shape := .text 0, required := false },
      { name := "compilerVersion", shape := .text 0, required := false }]
  | position =>
    [{ name := "line", shape := .integer 1 },
      { name := "col", shape := .integer 1 },
      { name := "offset", shape := .integer 0 }]
  | span =>
    [{ name := "start", shape := .record position },
      { name := "end", shape := .record position }]
  | program => nodeFields "Program" [{ name := "statements", shape := .list .statement }]
  | block => nodeFields "Block" [{ name := "statements", shape := .list .statement }]
  | conditional =>
    nodeFields "If"
      [{ name := "condition", shape := .expression },
        { name := "thenBlock", shape := .record block },
        { name := "elseBlock", shape := .orNull (.record block) }]
  | whileLoop =>
    nodeFields "While"
      [{ name := "condition", shape := .expression }, { name := "body", shape := .record block }]
  | loop => nodeFields "Loop" [{ name := "body", shape := .record block }]
  | breakLoop => nodeFields "Break" []
  | continueLoop => nodeFields "Continue" []
  | returnValue => nodeFields "Return" [{ name := "value", shape := .orNull .expression }]
  | binding =>
    nodeFields "Let"
      [{ name := "name", shape := .text 1 },
        { name := "mutable", shape := .bool },
        { name := "init", shape := .orNull .expression }]
  | function =>
    nodeFields "Func"
      [{ name := "name", shape := .text 1 },
        { name := "params", shape := .list (.text 1) },
        { name := "body", shape := .record block }]
  | expression => nodeFields "ExprStmt" [{ name := "expression", shape := .expression }]
  | number => nodeFields "Number" [{ name := "value", shape := .number }]
  | string => nodeFields "String" [{ name := "value", shape := .text 0 }]
  | bool => nodeFields "Bool" [{ name := "value", shape := .bool }]
  | null => nodeFields "Null" []
  | name => nodeFields "Name" [{ name := "name", shape := .text 1 }]
  | unary =>
    nodeFields "Unary"
      [{ name := "operator", shape := .anyText (UnaryOp.all.map UnaryOp.symbol) },
        { name := "operand", shape := .expression }]
  | binary =>
    nodeFields "Binary"
      [{ name := "operator", shape := .anyText (BinaryOp.all.map BinaryOp.symbol) },
        { name := "left", shape := .expression },
        { name := "right", shape := .expression }]
  | assign =>
    nodeFields "Assign"
      [{ name := "target", shape := .record name }, { name := "value", shape := .expression }]
  | call =>
    nodeFields "Call"
      [{ name := "callee", shape := .expression },
        { name := "args", shape := .list .expression }]

end Record

end BrookSyntax
