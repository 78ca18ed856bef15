import BrookSyntax.Json
import BrookSyntax.Tree

namespace BrookSyntax

variable {ν : Type} [Numeric ν]

def Position.toJson (p : Position ν) : Json :=
  .object [("line", .number (Numeric.number p.line)), ("col", .number (Numeric.number p.col)),
    ("offset", .number (Numeric.number p.offset))]

def Span.toJson (span : Span ν) : Json :=
  .object [("start", span.start.toJson), ("end", span.stop.toJson)]

/-- The object of a node of a kind. -/
def Json.node (kind : Text) (fields : List (Text × Json)) (span : Span) : Json :=
  .object ((Text.ofString "kind", text kind) :: fields ++ [(Text.ofString "span", span.toJson)])

def Name.toJson (name : Name) : Json := .node "Name" [("name", .text name.text)] name.span

namespace Expr

mutual

def toJson : Expr → Json
  | number value span => .node "Number" [("value", .number value)] span
  | string value span => .node "String" [("value", .text value)] span
  | bool value span => .node "Bool" [("value", .bool value)] span
  | null span => .node "Null" [] span
  | name n => n.toJson
  | unary op operand span =>
    .node "Unary" [("operator", .text op.symbol), ("operand", operand.toJson)] span
  | binary op left right span =>
    .node "Binary"
      [("operator", .text op.symbol), ("left", left.toJson), ("right", right.toJson)] span
  | assign target value span =>
    .node "Assign" [("target", target.toJson), ("value", value.toJson)] span
  | call callee args span =>
    .node "Call" [("callee", callee.toJson), ("args", .array (allToJson args))] span

def allToJson : List Expr → List Json
  | [] => []
  | expr :: rest => expr.toJson :: allToJson rest

end

/-- The image of an expression, or null for none. -/
def optionToJson : Option Expr → Json
  | none => .null
  | some expr => expr.toJson

end Expr

mutual

def Block.toJson : Block → Json
  | .mk statements span => .node "Block" [("statements", .array (Stmt.allToJson statements))] span

def Block.optionToJson : Option Block → Json
  | none => .null
  | some body => body.toJson

def Stmt.toJson : Stmt → Json
  | .block body => body.toJson
  | .conditional condition thenBlock elseBlock span =>
    .node "If"
      [("condition", condition.toJson), ("thenBlock", thenBlock.toJson),
        ("elseBlock", Block.optionToJson elseBlock)] span
  | .whileLoop condition body span =>
    .node "While" [("condition", condition.toJson), ("body", body.toJson)] span
  | .loop body span => .node "Loop" [("body", body.toJson)] span
  | .breakLoop span => .node "Break" [] span
  | .continueLoop span => .node "Continue" [] span
  | .returnValue value span => .node "Return" [("value", Expr.optionToJson value)] span
  | .binding name isMutable init span =>
    .node "Let"
      [("name", .text name), ("mutable", .bool isMutable), ("init", Expr.optionToJson init)] span
  | .function name params body span =>
    .node "Func"
      [("name", .text name), ("params", .array (params.map .text)), ("body", body.toJson)] span
  | .expression value span => .node "ExprStmt" [("expression", value.toJson)] span

def Stmt.allToJson : List Stmt → List Json
  | [] => []
  | stmt :: rest => stmt.toJson :: Stmt.allToJson rest

end

def Program.toJson (program : Program) : Json :=
  .node "Program" [("statements", .array (Stmt.allToJson program.statements))] program.span

end BrookSyntax
