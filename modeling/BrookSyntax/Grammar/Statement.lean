import BrookSyntax.Grammar.Expression

namespace BrookSyntax

namespace Grammar

open BrookSyntax.Parser

variable {α : Type}

def semicolon : Parser Text := spaced (literal ";")

/-- The rules that statements use one nesting level further in. -/
structure InnerStmt where
  statement : Parser Stmt
  conditional : Parser Stmt

/-- Statements up to where a look for their end finds it, at most a given number of them. -/
def statementsWithin (statement : Parser Stmt) (ending : Parser (Option α)) (expected : Text) :
    Nat → Parser (List Stmt)
  | 0 => fail (.openBlock expected)
  | n + 1 => spaced fun s c =>
    match ending s c with
    | .failed f => .failed f
    | .ok d (some _) => .ok d []
    | .ok _ none =>
      if c.atEnd s then fail (.openBlock expected) s c
      else
        match statement s c with
        | .failed f => .failed f
        | .ok d head =>
          match statementsWithin statement ending expected n s d with
          | .ok e tail => .ok e (head :: tail)
          | .failed f => .failed f

/-- Statements up to where a look for their end finds it. The first failure is that of the whole,
and so is the end of the source. Every statement reads at least one unit. -/
def statementsTo (statement : Parser Stmt) (ending : Parser (Option α)) (expected : Text) :
    Parser (List Stmt) := fun s c =>
  statementsWithin statement ending expected (s.length - c.offset + 1) s c

/-- Statements up to a terminator, whose own failures only mean that the end is not here. -/
def statementsUntil (statement : Parser Stmt) (terminator : Parser α) (expected : Text) :
    Parser (List Stmt) :=
  statementsTo statement (attempt terminator) expected

def blockWith (inner : InnerStmt) : Parser Block :=
  labelled "block"
    (mapSpan
      (literal "\x7b" *>
        committed (deeper (statementsUntil inner.statement (literal "\x7d") "\x7d")))
      Block.mk)

/-- What follows `else`: a block, or a conditional, which becomes the only statement of a block. -/
def elseWith (inner : InnerStmt) : Parser Block :=
  spaced (keyword "else") *>
    committed (spaced (choice [
      blockWith inner,
      (fun stmt => .mk [stmt] stmt.span) <$> deeper inner.conditional]))

def conditionalWith (inner : InnerStmt) : Parser Stmt :=
  labelled "if_statement"
    (mapSpan
      (keyword "if" *> committed do
        let condition ← spaced expression
        let thenBlock ← spaced (blockWith inner)
        let elseBlock ← optional (elseWith inner)
        pure (condition, thenBlock, elseBlock))
      fun (condition, thenBlock, elseBlock) span =>
        .conditional condition thenBlock elseBlock span)

def whileWith (inner : InnerStmt) : Parser Stmt :=
  labelled "while_statement"
    (mapSpan
      (keyword "while" *> committed do
        let condition ← spaced expression
        let body ← spaced (blockWith inner)
        pure (condition, body))
      fun (condition, body) span => .whileLoop condition body span)

def loopWith (inner : InnerStmt) : Parser Stmt :=
  labelled "loop_statement"
    (mapSpan (keyword "loop" *> committed (spaced (blockWith inner))) .loop)

def breakLoop : Parser Stmt :=
  labelled "break_statement"
    (mapSpan (keyword "break" *> committed semicolon) fun _ span => .breakLoop span)

def continueLoop : Parser Stmt :=
  labelled "continue_statement"
    (mapSpan (keyword "continue" *> committed semicolon) fun _ span => .continueLoop span)

def returnValue : Parser Stmt :=
  labelled "return_statement"
    (mapSpan (keyword "return" *> committed (optional (spaced expression) <* semicolon))
      .returnValue)

/-- The initial value of a binding, if there is one. -/
def initializer : Parser (Option Expr) :=
  optional (spaced (literal "=") *> committed (spaced expression))

def letBinding : Parser Stmt :=
  labelled "let_statement"
    (mapSpan
      (keyword "let" *> committed do
        let name ← spaced identifier
        let init ← initializer <* semicolon
        pure (name, init))
      fun (name, init) span => .binding name true init span)

def constBinding : Parser Stmt :=
  labelled "const_statement"
    (mapSpan
      (keyword "const" *> committed do
        let name ← spaced identifier
        let init ← spaced (literal "=") *> spaced expression <* semicolon
        pure (name, init))
      fun (name, init) span => .binding name false (some init) span)

/-- The names of a function's parameters. -/
def parameters : Parser (List Text) :=
  between (literal "(" *> trivia) (sepBy identifier comma) (spaced (literal ")"))

def functionWith (inner : InnerStmt) : Parser Stmt :=
  labelled "function_declaration"
    (mapSpan
      (keyword "fn" *> committed do
        let name ← spaced identifier
        let params ← spaced parameters
        let body ← spaced (blockWith inner)
        pure (name, params, body))
      fun (name, params, body) span => .function name params body span)

def expressionStmt : Parser Stmt :=
  labelled "expression_statement" (mapSpan (expression <* semicolon) .expression)

/-- Any statement; an expression is tried last, since it accepts the most. -/
def statementWith (inner : InnerStmt) : Parser Stmt :=
  choice [
    Stmt.block <$> blockWith inner,
    conditionalWith inner,
    whileWith inner,
    loopWith inner,
    breakLoop,
    continueLoop,
    returnValue,
    letBinding,
    constBinding,
    functionWith inner,
    expressionStmt]

/-- The rules that may still go a number of levels further in. -/
def InnerStmt.ofLevels : Nat → InnerStmt
  | 0 => ⟨tooDeep, tooDeep⟩
  | n + 1 =>
    { statement := fun s c => statementWith (ofLevels n) s c
      conditional := fun s c => conditionalWith (ofLevels n) s c }

/-- A rule over the levels that are still free at the cursor. -/
def atLevel (rule : InnerStmt → Parser α) : Parser α := fun s c =>
  rule (.ofLevels c.room) s c

def statement : Parser Stmt := atLevel statementWith

def block : Parser Block := atLevel blockWith

def conditional : Parser Stmt := atLevel conditionalWith

def whileLoop : Parser Stmt := atLevel whileWith

def loop : Parser Stmt := atLevel loopWith

def function : Parser Stmt := atLevel functionWith

/-- A whole source. -/
def program : Parser Program :=
  labelled "program" (mapSpan (statementsUntil statement endOfInput "end of input") Program.mk)

end Grammar

end BrookSyntax
