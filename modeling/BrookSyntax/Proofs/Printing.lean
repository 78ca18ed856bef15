import Mathlib.Data.List.Forall2
import BrookSyntax.Proofs.Derivation

namespace BrookSyntax

/-- The unit between printed tokens. -/
def CodeUnit.space : CodeUnit := CodeUnit.of ' '

/-- A word that is not reserved. -/
def IsName (w : Text) : Prop := IsWord w ∧ w ∉ keywords

instance (w : Text) : Decidable (IsName w) := inferInstanceAs (Decidable (_ ∧ _))

/-- The writing of a unit inside of a string: an escape where one is needed and for the controls
that have one. -/
def CodeUnit.escaped (u : CodeUnit) : Text :=
  if u = newline then [backslash, of 'n']
  else if u = of '\t' then [backslash, of 't']
  else if u = of '\r' then [backslash, of 'r']
  else if u = quote then [backslash, quote]
  else if u = backslash then [backslash, backslash]
  else if u = 0 then [backslash, of '0']
  else [u]

/-- The inside of a string with a value. -/
def Text.escaped (v : Text) : Text := v.flatMap CodeUnit.escaped

/-- A token of a kind is written as a text; a number may be written in many ways. -/
def TokenKind.Writes : TokenKind → Text → Prop
  | keyword word, t | name word, t => t = word
  | mark text, t => t = text
  | number value, t => IsNumeral t ∧ Binary64.ofNumeral t = value ∧ value.isFinite
  | string value, t => t = CodeUnit.quote :: value.escaped ++ [CodeUnit.quote]

namespace Expr

/-- The tightest level that an expression has without parentheses. -/
def level : Expr → Nat
  | assign _ _ _ => 1
  | binary op _ _ _ => op.precedence
  | unary _ _ _ => 8
  | call _ _ _ => 9
  | number _ _ | string _ _ | bool _ _ | null _ | name _ => 10

/-- The tokens of an expression in a place of a level: parentheses stand around them where the
expression is too loose for the place. -/
def placed (n : Nat) (e : Expr) (ts : List TokenKind) : List TokenKind :=
  if e.level < n then .mark "(" :: (ts ++ [.mark ")"]) else ts

mutual

/-- The tokens of an expression. -/
def tokens : Expr → List TokenKind
  | number value _ => [.number value]
  | string value _ => [.string value]
  | bool value _ => [.keyword (if value then "true" else "false")]
  | null _ => [.keyword "null"]
  | name n => [.name n.text]
  | unary op operand _ => .mark op.symbol :: operand.placed 8 operand.tokens
  | binary op left right _ =>
    left.placed op.precedence left.tokens ++
      .mark op.symbol :: right.placed (op.precedence + 1) right.tokens
  | assign target value _ => .name target.text :: .mark "=" :: value.tokens
  | call callee args _ =>
    callee.placed 9 callee.tokens ++
      .mark "(" :: ([.mark ","].intercalate (allTokens args) ++ [.mark ")"])

def allTokens : List Expr → List (List TokenKind)
  | [] => []
  | expr :: rest => expr.tokens :: allTokens rest

end

/-- The number of constructs inside one another, with the parentheses of a place of a level. -/
def placedNesting (n : Nat) (e : Expr) (nesting : Nat) : Nat :=
  if e.level < n then nesting + 1 else nesting

mutual

/-- The number of constructs that an expression opens inside one another. -/
def nesting : Expr → Nat
  | number _ _ | string _ _ | bool _ _ | null _ | name _ => 0
  | unary _ operand _ => operand.placedNesting 8 operand.nesting + 1
  | binary op left right _ =>
    max (left.placedNesting op.precedence left.nesting)
      (right.placedNesting (op.precedence + 1) right.nesting)
  | assign _ value _ => value.nesting + 1
  | call callee args _ => max (callee.placedNesting 9 callee.nesting) (allNesting args + 1)

def allNesting : List Expr → Nat
  | [] => 0
  | expr :: rest => max expr.nesting (allNesting rest)

end

mutual

/-- All names in the expression are words that are not reserved. -/
def WellNamed : Expr → Prop
  | number _ _ | string _ _ | bool _ _ | null _ => True
  | name n => IsName n.text
  | unary _ operand _ => operand.WellNamed
  | binary _ left right _ => left.WellNamed ∧ right.WellNamed
  | assign target value _ => IsName target.text ∧ value.WellNamed
  | call callee args _ => callee.WellNamed ∧ AllWellNamed args

def AllWellNamed : List Expr → Prop
  | [] => True
  | expr :: rest => expr.WellNamed ∧ AllWellNamed rest

end

mutual

/-- The expression without its spans. -/
def bare : Expr → Expr
  | number value _ => number value default
  | string value _ => string value default
  | bool value _ => bool value default
  | null _ => null default
  | name n => name ⟨n.text, default⟩
  | unary op operand _ => unary op operand.bare default
  | binary op left right _ => binary op left.bare right.bare default
  | assign target value _ => assign ⟨target.text, default⟩ value.bare default
  | call callee args _ => call callee.bare (allBare args) default

def allBare : List Expr → List Expr
  | [] => []
  | expr :: rest => expr.bare :: allBare rest

end

end Expr

/-- The block holds nothing but a conditional. -/
def Block.isConditional : Block → Bool
  | .mk [.conditional _ _ _ _] _ => true
  | _ => false

section Statements

-- Which of the blocks that may be printed as a conditional right after `else` are.
variable (chained : Block → Bool)

mutual

/-- The tokens between the braces of a block. -/
def Block.tokens : Block → List TokenKind
  | .mk statements _ => Stmt.allTokens statements

def Block.elseTokens : Option Block → List TokenKind
  | none => []
  | some body =>
    .keyword "else" ::
      if chained body && body.isConditional then body.tokens
      else .mark "\x7b" :: (body.tokens ++ [.mark "\x7d"])

/-- The tokens of a statement. -/
def Stmt.tokens : Stmt → List TokenKind
  | .block body => .mark "\x7b" :: (body.tokens ++ [.mark "\x7d"])
  | .conditional condition thenBlock elseBlock _ =>
    .keyword "if" :: (condition.tokens ++
      (.mark "\x7b" :: (thenBlock.tokens ++ [.mark "\x7d"]) ++ Block.elseTokens elseBlock))
  | .whileLoop condition body _ =>
    .keyword "while" :: (condition.tokens ++ .mark "\x7b" :: (body.tokens ++ [.mark "\x7d"]))
  | .loop body _ => .keyword "loop" :: .mark "\x7b" :: (body.tokens ++ [.mark "\x7d"])
  | .breakLoop _ => [.keyword "break", .mark ";"]
  | .continueLoop _ => [.keyword "continue", .mark ";"]
  | .returnValue value _ =>
    .keyword "return" :: (value.elim [] Expr.tokens ++ [.mark ";"])
  | .binding name isMutable init _ =>
    .keyword (if isMutable then "let" else "const") :: .name name ::
      (init.elim [] (fun value => .mark "=" :: value.tokens) ++ [.mark ";"])
  | .function name params body _ =>
    .keyword "fn" :: .name name :: .mark "(" ::
      ([.mark ","].intercalate (params.map fun word => [.name word]) ++
        .mark ")" :: .mark "\x7b" :: (body.tokens ++ [.mark "\x7d"]))
  | .expression value _ => value.tokens ++ [.mark ";"]

def Stmt.allTokens : List Stmt → List TokenKind
  | [] => []
  | stmt :: rest => stmt.tokens ++ Stmt.allTokens rest

end

/-- The tokens of a program. -/
def Program.tokens (p : Program) : List TokenKind := Stmt.allTokens chained p.statements

/-- The program is printed as a text: its tokens with one space between neighbours. -/
def Program.Prints (p : Program) (t : Text) : Prop :=
  ∃ texts, List.Forall₂ TokenKind.Writes (p.tokens chained) texts ∧
    t = Text.join [CodeUnit.space] texts

end Statements

mutual

/-- The number of constructs that the statements of a block open inside one another. -/
def Block.nesting : Block → Nat
  | .mk statements _ => Stmt.allNesting statements

def Block.elseNesting : Option Block → Nat
  | none => 0
  | some body => body.nesting + 1

/-- The number of constructs that a statement opens inside one another; a conditional right after
`else` counts as one. -/
def Stmt.nesting : Stmt → Nat
  | .block body => body.nesting + 1
  | .conditional condition thenBlock elseBlock _ =>
    max condition.nesting (max (thenBlock.nesting + 1) (Block.elseNesting elseBlock))
  | .whileLoop condition body _ => max condition.nesting (body.nesting + 1)
  | .loop body _ => body.nesting + 1
  | .breakLoop _ | .continueLoop _ => 0
  | .returnValue value _ => value.elim 0 Expr.nesting
  | .binding _ _ init _ => init.elim 0 Expr.nesting
  | .function _ _ body _ => body.nesting + 1
  | .expression value _ => value.nesting

def Stmt.allNesting : List Stmt → Nat
  | [] => 0
  | stmt :: rest => max stmt.nesting (Stmt.allNesting rest)

end

/-- The number of constructs that a program opens inside one another. -/
def Program.nesting (p : Program) : Nat := Stmt.allNesting p.statements

mutual

/-- All names in the block are words that are not reserved, and what is bound for good has a
value. -/
def Block.WellFormed : Block → Prop
  | .mk statements _ => Stmt.AllWellFormed statements

def Block.OptionWellFormed : Option Block → Prop
  | none => True
  | some body => body.WellFormed

def Stmt.WellFormed : Stmt → Prop
  | .block body => body.WellFormed
  | .conditional condition thenBlock elseBlock _ =>
    condition.WellNamed ∧ thenBlock.WellFormed ∧ Block.OptionWellFormed elseBlock
  | .whileLoop condition body _ => condition.WellNamed ∧ body.WellFormed
  | .loop body _ => body.WellFormed
  | .breakLoop _ | .continueLoop _ => True
  | .returnValue value _ => value.elim True Expr.WellNamed
  | .binding name isMutable init _ =>
    IsName name ∧ (isMutable = false → init.isSome) ∧ init.elim True Expr.WellNamed
  | .function name params body _ => IsName name ∧ (∀ word ∈ params, IsName word) ∧ body.WellFormed
  | .expression value _ => value.WellNamed

def Stmt.AllWellFormed : List Stmt → Prop
  | [] => True
  | stmt :: rest => stmt.WellFormed ∧ Stmt.AllWellFormed rest

end

/-- All names in the program are words that are not reserved, and what is bound for good has a
value. -/
def Program.WellFormed (p : Program) : Prop := Stmt.AllWellFormed p.statements

mutual

/-- The block without its spans. -/
def Block.bare : Block → Block
  | .mk statements _ => .mk (Stmt.allBare statements) default

def Block.optionBare : Option Block → Option Block
  | none => none
  | some body => some body.bare

/-- The statement without its spans. -/
def Stmt.bare : Stmt → Stmt
  | .block body => .block body.bare
  | .conditional condition thenBlock elseBlock _ =>
    .conditional condition.bare thenBlock.bare (Block.optionBare elseBlock) default
  | .whileLoop condition body _ => .whileLoop condition.bare body.bare default
  | .loop body _ => .loop body.bare default
  | .breakLoop _ => .breakLoop default
  | .continueLoop _ => .continueLoop default
  | .returnValue value _ => .returnValue (value.map Expr.bare) default
  | .binding name isMutable init _ => .binding name isMutable (init.map Expr.bare) default
  | .function name params body _ => .function name params body.bare default
  | .expression value _ => .expression value.bare default

def Stmt.allBare : List Stmt → List Stmt
  | [] => []
  | stmt :: rest => stmt.bare :: Stmt.allBare rest

end

/-- The program without its spans. -/
def Program.bare (p : Program) : Program := ⟨Stmt.allBare p.statements, default⟩

end BrookSyntax
