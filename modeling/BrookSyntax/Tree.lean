import BrookSyntax.Binary64
import BrookSyntax.Position

namespace BrookSyntax

/-- Operators with one operand. -/
inductive UnaryOp where
  | not
  | neg
deriving DecidableEq, Inhabited

namespace UnaryOp

def symbol : UnaryOp → Text
  | not => "!"
  | neg => "-"

/-- All unary operators, in the order in which they are tried. -/
def all : List UnaryOp := [not, neg]

end UnaryOp

/-- Operators with two operands. -/
inductive BinaryOp where
  | or
  | and
  | eq
  | ne
  | lt
  | le
  | gt
  | ge
  | add
  | sub
  | mul
  | div
  | rem
deriving DecidableEq, Inhabited

namespace BinaryOp

def symbol : BinaryOp → Text
  | or => "||"
  | and => "&&"
  | eq => "=="
  | ne => "!="
  | lt => "<"
  | le => "<="
  | gt => ">"
  | ge => ">="
  | add => "+"
  | sub => "-"
  | mul => "*"
  | div => "/"
  | rem => "%"

/-- All binary operators. -/
def all : List BinaryOp := [or, and, eq, ne, lt, le, gt, ge, add, sub, mul, div, rem]

/-- The operators by precedence, the loosest level first. Within a level an operator stands before
the operators that are its beginnings. -/
def levels : List (List BinaryOp) :=
  [[or], [and], [eq, ne], [le, ge, lt, gt], [add, sub], [mul, div, rem]]

end BinaryOp

/-- A name where it stands in the text. -/
structure Name where
  text : Text
  span : Span
deriving DecidableEq, Inhabited

/-- Expressions. -/
inductive Expr where
  | number (value : Binary64) (span : Span)
  | string (value : Text) (span : Span)
  | bool (value : Bool) (span : Span)
  | null (span : Span)
  | name (name : Name)
  | unary (op : UnaryOp) (operand : Expr) (span : Span)
  | binary (op : BinaryOp) (left right : Expr) (span : Span)
  | assign (target : Name) (value : Expr) (span : Span)
  | call (callee : Expr) (args : List Expr) (span : Span)
deriving Inhabited

def Expr.span : Expr → Span
  | number _ span => span
  | string _ span => span
  | bool _ span => span
  | null span => span
  | name n => n.span
  | unary _ _ span => span
  | binary _ _ _ span => span
  | assign _ _ span => span
  | call _ _ span => span

mutual

/-- Statements between braces. -/
inductive Block where
  | mk (statements : List Stmt) (span : Span)

/-- Statements. A binding is mutable if it was made by `let` and not by `const`. -/
inductive Stmt where
  | block (body : Block)
  | conditional (condition : Expr) (thenBlock : Block) (elseBlock : Option Block) (span : Span)
  | whileLoop (condition : Expr) (body : Block) (span : Span)
  | loop (body : Block) (span : Span)
  | breakLoop (span : Span)
  | continueLoop (span : Span)
  | returnValue (value : Option Expr) (span : Span)
  | binding (name : Text) (isMutable : Bool) (init : Option Expr) (span : Span)
  | function (name : Text) (params : List Text) (body : Block) (span : Span)
  | expression (value : Expr) (span : Span)

end

instance : Inhabited Block := ⟨.mk [] default⟩

instance : Inhabited Stmt := ⟨.breakLoop default⟩

def Block.statements : Block → List Stmt
  | mk statements _ => statements

def Block.span : Block → Span
  | mk _ span => span

def Stmt.span : Stmt → Span
  | block body => body.span
  | conditional _ _ _ span => span
  | whileLoop _ _ span => span
  | loop _ span => span
  | breakLoop span => span
  | continueLoop span => span
  | returnValue _ span => span
  | binding _ _ _ span => span
  | function _ _ _ span => span
  | expression _ span => span

/-- A whole source. -/
structure Program where
  statements : List Stmt
  span : Span
deriving Inhabited

end BrookSyntax
