import BrookSyntax.Grammar.Literal
import BrookSyntax.Parser.Commitment

namespace BrookSyntax

namespace Grammar

open BrookSyntax.Parser

/-- The rules that expressions use one nesting level further in. Every rule takes them as an
argument, so no rule calls itself. -/
structure InnerExpr where
  assignment : Parser Expr
  unary : Parser Expr

/-- An expression in parentheses, which leave no node. -/
def parenthesized (inner : InnerExpr) : Parser Expr :=
  literal "(" *> committed (deeper (between trivia inner.assignment (spaced (literal ")"))))

def primary (inner : InnerExpr) : Parser Expr :=
  choice [number, string, constant, Expr.name <$> name, parenthesized inner]

/-- A comma between items, with the trivia around it. -/
def comma : Parser Unit := spaced (literal ",") *> trivia

/-- The arguments of a call. -/
def arguments (inner : InnerExpr) : Parser (List Expr) :=
  literal "(" *>
    committed (deeper (between trivia (sepBy inner.assignment comma) (spaced (literal ")"))))

/-- The call of a function with arguments, up to the place where they end. -/
def applyCall (callee : Expr) (call : List Expr × Position) : Expr :=
  .call callee call.1 ⟨callee.span.start, call.2⟩

/-- A primary expression and the calls made of it. -/
def called (inner : InnerExpr) : Parser Expr := do
  let head ← primary inner
  let calls ← many (mapSpan (spaced (arguments inner)) fun args span => (args, span.stop))
  pure (calls.foldl applyCall head)

def unaryOp : Parser UnaryOp :=
  choice (UnaryOp.all.map fun op => (fun _ => op) <$> literal op.symbol)

def unary (inner : InnerExpr) : Parser Expr :=
  describedAs "expression" (choice [
    mapSpan
      (do
        let op ← unaryOp
        let operand ← committed (spaced (deeper inner.unary))
        pure (op, operand))
      fun (op, operand) span => .unary op operand span,
    called inner])

/-- One of some binary operators. -/
def binaryOp (ops : List BinaryOp) : Parser BinaryOp :=
  choice (ops.map fun op => (fun _ => op) <$> literal op.symbol)

/-- The application of an operator to what was read so far and one operand more. -/
def applyBinary (left : Expr) (next : BinaryOp × Expr) : Expr :=
  .binary next.1 left next.2 (left.span.cover next.2.span)

/-- Operands joined by the operators of one level, from left to right. -/
def binary (ops : List BinaryOp) (operand : Parser Expr) : Parser Expr := do
  let head ← operand
  let rest ← many do
    let op ← spaced (binaryOp ops)
    let right ← committed (spaced operand)
    pure (op, right)
  pure (rest.foldl applyBinary head)

/-- All levels of binary operators over the unary level. -/
def binaries (inner : InnerExpr) : Parser Expr := BinaryOp.levels.foldr binary (unary inner)

/-- The sign of assignment, which is not the beginning of an equality. -/
def assignSign : Parser Text := literalBefore "=" (· == some (CodeUnit.of '='))

def assignment (inner : InnerExpr) : Parser Expr :=
  describedAs "expression" (choice [
    mapSpan
      (do
        let target ← name
        let value ← spaced assignSign *> committed (spaced (deeper inner.assignment))
        pure (target, value))
      fun (target, value) span => .assign target value span,
    binaries inner])

/-- The rules that may still go a number of levels further in. -/
def InnerExpr.ofLevels : Nat → InnerExpr
  | 0 => ⟨tooDeep, tooDeep⟩
  | n + 1 =>
    { assignment := fun s c => Grammar.assignment (ofLevels n) s c
      unary := fun s c => Grammar.unary (ofLevels n) s c }

/-- An expression. -/
def expression : Parser Expr := fun s c =>
  labelled "expression" (assignment (.ofLevels c.room)) s c

end Grammar

end BrookSyntax
