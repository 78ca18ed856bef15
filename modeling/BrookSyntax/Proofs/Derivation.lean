import BrookSyntax.Proofs.Tokens

namespace BrookSyntax

/-- The level of an operator. -/
def BinaryOp.precedence : BinaryOp → Nat
  | or => 2
  | and => 3
  | eq | ne => 4
  | lt | le | gt | ge => 5
  | add | sub => 6
  | mul | div | rem => 7

namespace Token

abbrev keyword (word : Text) (span : Span) : Token := ⟨.keyword word, span⟩

abbrev name (word : Text) (span : Span) : Token := ⟨.name word, span⟩

abbrev mark (text : Text) (span : Span) : Token := ⟨.mark text, span⟩

end Token

mutual

/-- The tokens are an expression of a level with the given tree, and at most a given number of
constructs are opened inside one another. Level 1 is assignment, 2 to 7 are the binary operators
from the loosest on, 8 is the unary operators, 9 is calls and 10 is what needs no operator. -/
inductive DerivesExpr : Nat → Nat → List Token → Expr → Prop where
  | number (k : Nat) (value : Binary64) (a : Span) :
      DerivesExpr k 10 [⟨.number value, a⟩] (.number value a)
  | string (k : Nat) (value : Text) (a : Span) :
      DerivesExpr k 10 [⟨.string value, a⟩] (.string value a)
  | true (k : Nat) (a : Span) : DerivesExpr k 10 [.keyword "true" a] (.bool true a)
  | false (k : Nat) (a : Span) : DerivesExpr k 10 [.keyword "false" a] (.bool false a)
  | null (k : Nat) (a : Span) : DerivesExpr k 10 [.keyword "null" a] (.null a)
  | name (k : Nat) (word : Text) (a : Span) :
      DerivesExpr k 10 [.name word a] (.name ⟨word, a⟩)
  | group {k : Nat} {ts : List Token} {e : Expr} (a b : Span) (h : DerivesExpr k 1 ts e) :
      DerivesExpr (k + 1) 10 (.mark "(" a :: (ts ++ [.mark ")" b])) e
  | call {k : Nat} {ts us : List Token} {callee : Expr} {args : List Expr} (a b : Span)
      (hc : DerivesExpr (k + 1) 9 ts callee) (ha : DerivesArgs k us args) :
      DerivesExpr (k + 1) 9 (ts ++ .mark "(" a :: (us ++ [.mark ")" b]))
        (.call callee args ⟨callee.span.start, b.stop⟩)
  | unary {k : Nat} {ts : List Token} {e : Expr} (op : UnaryOp) (a : Span)
      (h : DerivesExpr k 8 ts e) :
      DerivesExpr (k + 1) 8 (.mark op.symbol a :: ts)
        (.unary op e (Token.extent (.mark op.symbol a :: ts)))
  | binary {k n : Nat} {ts us : List Token} {left right : Expr} {op : BinaryOp} (a : Span)
      (hn : op.precedence = n) (hl : DerivesExpr k n ts left)
      (hr : DerivesExpr k (n + 1) us right) :
      DerivesExpr k n (ts ++ .mark op.symbol a :: us)
        (.binary op left right (left.span.cover right.span))
  | assign {k : Nat} {ts : List Token} {e : Expr} (word : Text) (a b : Span)
      (h : DerivesExpr k 1 ts e) :
      DerivesExpr (k + 1) 1 (.name word a :: .mark "=" b :: ts)
        (.assign ⟨word, a⟩ e (Token.extent (.name word a :: .mark "=" b :: ts)))
  | tighter {k n : Nat} {ts : List Token} {e : Expr} (hn : 1 ≤ n)
      (h : DerivesExpr k (n + 1) ts e) : DerivesExpr k n ts e

/-- The tokens are expressions with commas between neighbours, at least one. -/
inductive DerivesItems : Nat → List Token → List Expr → Prop where
  | single {k : Nat} {ts : List Token} {e : Expr} (h : DerivesExpr k 1 ts e) :
      DerivesItems k ts [e]
  | cons {k : Nat} {ts us : List Token} {e : Expr} {es : List Expr} (a : Span)
      (h : DerivesExpr k 1 ts e) (hs : DerivesItems k us es) :
      DerivesItems k (ts ++ .mark "," a :: us) (e :: es)

/-- The tokens are the arguments of a call. -/
inductive DerivesArgs : Nat → List Token → List Expr → Prop where
  | none (k : Nat) : DerivesArgs k [] []
  | some {k : Nat} {ts : List Token} {es : List Expr} (h : DerivesItems k ts es) :
      DerivesArgs k ts es

end

/-- The tokens are names with commas between neighbours, at least one. -/
inductive DerivesNames : List Token → List Text → Prop where
  | single (word : Text) (a : Span) : DerivesNames [.name word a] [word]
  | cons {ts : List Token} {words : List Text} (word : Text) (a b : Span)
      (h : DerivesNames ts words) :
      DerivesNames (.name word a :: .mark "," b :: ts) (word :: words)

/-- The tokens are the parameters of a function. -/
inductive DerivesParams : List Token → List Text → Prop where
  | none : DerivesParams [] []
  | some {ts : List Token} {words : List Text} (h : DerivesNames ts words) :
      DerivesParams ts words

/-- The tokens are the initial value of a mutable binding, if it has one. -/
inductive DerivesInit : Nat → List Token → Option Expr → Prop where
  | none (k : Nat) : DerivesInit k [] none
  | some {k : Nat} {ts : List Token} {e : Expr} (a : Span) (h : DerivesExpr k 1 ts e) :
      DerivesInit k (.mark "=" a :: ts) (some e)

/-- The tokens are an expression or nothing. -/
inductive DerivesOptional : Nat → List Token → Option Expr → Prop where
  | none (k : Nat) : DerivesOptional k [] none
  | some {k : Nat} {ts : List Token} {e : Expr} (h : DerivesExpr k 1 ts e) :
      DerivesOptional k ts (some e)

mutual

/-- The tokens are a block. -/
inductive DerivesBlock : Nat → List Token → Block → Prop where
  | mk {k : Nat} {ts : List Token} {stmts : List Stmt} (a b : Span) (h : DerivesStmts k ts stmts) :
      DerivesBlock (k + 1) (.mark "\x7b" a :: (ts ++ [.mark "\x7d" b]))
        (.mk stmts (Token.extent (.mark "\x7b" a :: (ts ++ [.mark "\x7d" b]))))

/-- The tokens are statements one after the other. -/
inductive DerivesStmts : Nat → List Token → List Stmt → Prop where
  | nil (k : Nat) : DerivesStmts k [] []
  | cons {k : Nat} {ts us : List Token} {stmt : Stmt} {stmts : List Stmt}
      (h : DerivesStmt k ts stmt) (hs : DerivesStmts k us stmts) :
      DerivesStmts k (ts ++ us) (stmt :: stmts)

/-- The tokens are what follows the first block of a conditional: nothing, or `else` and a block, or
`else` and another conditional, which becomes the only statement of a block. -/
inductive DerivesElse : Nat → List Token → Option Block → Prop where
  | none (k : Nat) : DerivesElse k [] none
  | block {k : Nat} {ts : List Token} {body : Block} (a : Span) (h : DerivesBlock k ts body) :
      DerivesElse k (.keyword "else" a :: ts) (some body)
  | chained {k : Nat} {ts : List Token} {condition : Expr} {thenBlock : Block}
      {elseBlock : Option Block} {b : Span} (a : Span)
      (h : DerivesStmt k ts (.conditional condition thenBlock elseBlock b)) :
      DerivesElse (k + 1) (.keyword "else" a :: ts)
        (some (.mk [.conditional condition thenBlock elseBlock b] b))

/-- The tokens are a statement. -/
inductive DerivesStmt : Nat → List Token → Stmt → Prop where
  | block {k : Nat} {ts : List Token} {body : Block} (h : DerivesBlock k ts body) :
      DerivesStmt k ts (.block body)
  | conditional {k : Nat} {ts us vs : List Token} {condition : Expr} {thenBlock : Block}
      {elseBlock : Option Block} (a : Span) (hc : DerivesExpr k 1 ts condition)
      (ht : DerivesBlock k us thenBlock) (he : DerivesElse k vs elseBlock) :
      DerivesStmt k (.keyword "if" a :: (ts ++ (us ++ vs)))
        (.conditional condition thenBlock elseBlock
          (Token.extent (.keyword "if" a :: (ts ++ (us ++ vs)))))
  | whileLoop {k : Nat} {ts us : List Token} {condition : Expr} {body : Block} (a : Span)
      (hc : DerivesExpr k 1 ts condition) (hb : DerivesBlock k us body) :
      DerivesStmt k (.keyword "while" a :: (ts ++ us))
        (.whileLoop condition body (Token.extent (.keyword "while" a :: (ts ++ us))))
  | loop {k : Nat} {ts : List Token} {body : Block} (a : Span) (hb : DerivesBlock k ts body) :
      DerivesStmt k (.keyword "loop" a :: ts)
        (.loop body (Token.extent (.keyword "loop" a :: ts)))
  | breakLoop (k : Nat) (a b : Span) :
      DerivesStmt k [.keyword "break" a, .mark ";" b]
        (.breakLoop (Token.extent [.keyword "break" a, .mark ";" b]))
  | continueLoop (k : Nat) (a b : Span) :
      DerivesStmt k [.keyword "continue" a, .mark ";" b]
        (.continueLoop (Token.extent [.keyword "continue" a, .mark ";" b]))
  | returnValue {k : Nat} {ts : List Token} {value : Option Expr} (a b : Span)
      (h : DerivesOptional k ts value) :
      DerivesStmt k (.keyword "return" a :: (ts ++ [.mark ";" b]))
        (.returnValue value (Token.extent (.keyword "return" a :: (ts ++ [.mark ";" b]))))
  | letBinding {k : Nat} {ts : List Token} {init : Option Expr} (word : Text) (a b c : Span)
      (h : DerivesInit k ts init) :
      DerivesStmt k (.keyword "let" a :: .name word b :: (ts ++ [.mark ";" c]))
        (.binding word true init
          (Token.extent (.keyword "let" a :: .name word b :: (ts ++ [.mark ";" c]))))
  | constBinding {k : Nat} {ts : List Token} {init : Expr} (word : Text) (a b c d : Span)
      (h : DerivesExpr k 1 ts init) :
      DerivesStmt k (.keyword "const" a :: .name word b :: .mark "=" c :: (ts ++ [.mark ";" d]))
        (.binding word false (some init)
          (Token.extent
            (.keyword "const" a :: .name word b :: .mark "=" c :: (ts ++ [.mark ";" d]))))
  | function {k : Nat} {ts us : List Token} {params : List Text} {body : Block} (word : Text)
      (a b c d : Span) (hp : DerivesParams ts params) (hb : DerivesBlock k us body) :
      DerivesStmt k
        (.keyword "fn" a :: .name word b :: .mark "(" c :: (ts ++ .mark ")" d :: us))
        (.function word params body
          (Token.extent
            (.keyword "fn" a :: .name word b :: .mark "(" c :: (ts ++ .mark ")" d :: us))))
  | expression {k : Nat} {ts : List Token} {value : Expr} (a : Span)
      (h : DerivesExpr k 1 ts value) :
      DerivesStmt k (ts ++ [.mark ";" a])
        (.expression value (Token.extent (ts ++ [.mark ";" a])))

end

end BrookSyntax
