import BrookSyntax.Proofs.Places
import BrookSyntax.Proofs.Printing

namespace BrookSyntax

/-- A change of spans under which the two ends of a stretch move each on its own, and the least
stretch over two others moves with them. -/
structure Respan where
  map : Span → Span
  ends : ∀ a b : Span, map ⟨a.start, b.stop⟩ = ⟨(map a).start, (map b).stop⟩
  cover : ∀ a b : Span, map (a.cover b) = (map a).cover (map b)

/-- Starts and stops of stretches are moved, each in order. -/
def Respan.ofEnds (f g : Position → Position) (hf : Position.InOrder f)
    (hg : Position.InOrder g) : Respan where
  map a := ⟨f a.start, g a.stop⟩
  ends _ _ := rfl
  cover a b := by
    rw [Span.cover, Span.cover, hf.pick id, hg.pick Eq.symm]

section Trees

variable (g : Span → Span)

namespace Expr

mutual

/-- The expression with all its spans changed. -/
def mapSpans : Expr → Expr
  | number value a => number value (g a)
  | string value a => string value (g a)
  | bool value a => bool value (g a)
  | null a => null (g a)
  | name n => name ⟨n.text, g n.span⟩
  | unary op operand a => unary op operand.mapSpans (g a)
  | binary op left right a => binary op left.mapSpans right.mapSpans (g a)
  | assign target value a => assign ⟨target.text, g target.span⟩ value.mapSpans (g a)
  | call callee args a => call callee.mapSpans (allMapSpans args) (g a)

def allMapSpans : List Expr → List Expr
  | [] => []
  | expr :: rest => expr.mapSpans :: allMapSpans rest

end

theorem mapSpans_span (e : Expr) : (e.mapSpans g).span = g e.span := by cases e <;> rfl

mutual

theorem mapSpans_bare (e : Expr) : (e.mapSpans g).bare = e.bare := by
  cases e with
  | number | string | bool | null | name => rfl
  | unary op operand a => rw [mapSpans, bare, mapSpans_bare operand, bare]
  | binary op left right a =>
    rw [mapSpans, bare, mapSpans_bare left, mapSpans_bare right, bare]
  | assign target value a => rw [mapSpans, bare, mapSpans_bare value, bare]
  | call callee args a => rw [mapSpans, bare, mapSpans_bare callee, allMapSpans_bare args, bare]

theorem allMapSpans_bare (es : List Expr) : allBare (allMapSpans g es) = allBare es := by
  cases es with
  | nil => rfl
  | cons e es => rw [allMapSpans, allBare, mapSpans_bare e, allMapSpans_bare es, allBare]

end

end Expr

mutual

/-- The block with all its spans changed. -/
def Block.mapSpans : Block → Block
  | .mk statements a => .mk (Stmt.allMapSpans statements) (g a)

def Block.optionMapSpans : Option Block → Option Block
  | none => none
  | some body => some body.mapSpans

/-- The statement with all its spans changed. -/
def Stmt.mapSpans : Stmt → Stmt
  | .block body => .block body.mapSpans
  | .conditional condition thenBlock elseBlock a =>
    .conditional (condition.mapSpans g) thenBlock.mapSpans (Block.optionMapSpans elseBlock) (g a)
  | .whileLoop condition body a => .whileLoop (condition.mapSpans g) body.mapSpans (g a)
  | .loop body a => .loop body.mapSpans (g a)
  | .breakLoop a => .breakLoop (g a)
  | .continueLoop a => .continueLoop (g a)
  | .returnValue value a => .returnValue (value.map (Expr.mapSpans g)) (g a)
  | .binding name isMutable init a => .binding name isMutable (init.map (Expr.mapSpans g)) (g a)
  | .function name params body a => .function name params body.mapSpans (g a)
  | .expression value a => .expression (value.mapSpans g) (g a)

def Stmt.allMapSpans : List Stmt → List Stmt
  | [] => []
  | stmt :: rest => stmt.mapSpans :: Stmt.allMapSpans rest

end

mutual

theorem Block.mapSpans_bare (body : Block) : (body.mapSpans g).bare = body.bare := by
  obtain ⟨stmts, a⟩ := body
  rw [Block.mapSpans, Block.bare, Stmt.allMapSpans_bare stmts, Block.bare]

theorem Block.optionMapSpans_bare (body : Option Block) :
    Block.optionBare (Block.optionMapSpans g body) = Block.optionBare body := by
  cases body with
  | none => rfl
  | some body => rw [Block.optionMapSpans, Block.optionBare, body.mapSpans_bare, Block.optionBare]

theorem Stmt.mapSpans_bare (stmt : Stmt) : (stmt.mapSpans g).bare = stmt.bare := by
  have hvalue (value : Option Expr) : (value.map (Expr.mapSpans g)).map Expr.bare =
      value.map Expr.bare := by
    rw [Option.map_map]
    exact congrArg (Option.map · value) (funext (Expr.mapSpans_bare g))
  cases stmt with
  | block body => rw [Stmt.mapSpans, Stmt.bare, body.mapSpans_bare, Stmt.bare]
  | conditional condition thenBlock elseBlock a =>
    rw [Stmt.mapSpans, Stmt.bare, condition.mapSpans_bare, thenBlock.mapSpans_bare,
      Block.optionMapSpans_bare elseBlock, Stmt.bare]
  | whileLoop condition body a =>
    rw [Stmt.mapSpans, Stmt.bare, condition.mapSpans_bare, body.mapSpans_bare, Stmt.bare]
  | loop body a => rw [Stmt.mapSpans, Stmt.bare, body.mapSpans_bare, Stmt.bare]
  | breakLoop a | continueLoop a => rfl
  | returnValue value a => rw [Stmt.mapSpans, Stmt.bare, hvalue, Stmt.bare]
  | binding name isMutable init a => rw [Stmt.mapSpans, Stmt.bare, hvalue, Stmt.bare]
  | function name params body a => rw [Stmt.mapSpans, Stmt.bare, body.mapSpans_bare, Stmt.bare]
  | expression value a => rw [Stmt.mapSpans, Stmt.bare, value.mapSpans_bare, Stmt.bare]

theorem Stmt.allMapSpans_bare (stmts : List Stmt) :
    Stmt.allBare (Stmt.allMapSpans g stmts) = Stmt.allBare stmts := by
  cases stmts with
  | nil => rfl
  | cons stmt rest =>
    rw [Stmt.allMapSpans, Stmt.allBare, stmt.mapSpans_bare, Stmt.allMapSpans_bare rest,
      Stmt.allBare]

end

end Trees

/-- The token at another place. -/
def Token.mapSpan (g : Span → Span) (t : Token) : Token := ⟨t.kind, g t.span⟩

section Derivations

variable (r : Respan) {k n : Nat} {ts : List Token}

theorem Token.extent_mapSpan (hts : ts ≠ []) :
    extent (ts.map (mapSpan r.map)) = r.map (extent ts) := by
  obtain ⟨t, rest, rfl⟩ := List.exists_cons_of_ne_nil hts
  have hends := r.ends t.span ((t :: rest).getLast hts).span
  rw [extent, extent, List.head?_map, List.getLast?_map, List.head?_cons,
    List.getLast?_eq_some_getLast hts, Option.map_some, Option.map_some, Option.map_some,
    Option.map_some, Option.getD_some, Option.getD_some]
  exact hends.symm

theorem DerivesExpr.mapSpans {e : Expr} (h : DerivesExpr k n ts e) :
    DerivesExpr k n (ts.map (Token.mapSpan r.map)) (e.mapSpans r.map) := by
  induction h using DerivesExpr.rec
    (motive_2 := fun k ts es _ =>
      DerivesItems k (ts.map (Token.mapSpan r.map)) (Expr.allMapSpans r.map es))
    (motive_3 := fun k ts es _ =>
      DerivesArgs k (ts.map (Token.mapSpan r.map)) (Expr.allMapSpans r.map es)) with
  | number k value a => exact .number k value _
  | string k value a => exact .string k value _
  | true k a => exact .true k _
  | false k a => exact .false k _
  | null k a => exact .null k _
  | name k word a => exact .name k word _
  | group a b h ih =>
    rw [List.map_cons, List.map_append]
    exact .group _ _ ih
  | @call k ts us callee args a b hc ha ihc iha =>
    have hspan := r.ends callee.span b
    rw [← callee.mapSpans_span r.map] at hspan
    rw [List.map_append, List.map_cons, List.map_append, Expr.mapSpans, hspan]
    exact .call _ _ ihc iha
  | unary op a h ih =>
    rw [Expr.mapSpans, ← Token.extent_mapSpan r (List.cons_ne_nil _ _)]
    exact .unary op _ ih
  | @binary k n ts us left right op a hn hl hr ihl ihr =>
    rw [List.map_append, List.map_cons, Expr.mapSpans, r.cover, ← left.mapSpans_span r.map,
      ← right.mapSpans_span r.map]
    exact .binary _ hn ihl ihr
  | assign word a b h ih =>
    rw [Expr.mapSpans, ← Token.extent_mapSpan r (List.cons_ne_nil _ _)]
    exact .assign word _ _ ih
  | tighter hn h ih => exact .tighter hn ih
  | single h ih => exact .single ih
  | cons a h hs ih ihs =>
    rw [List.map_append, List.map_cons]
    exact .cons _ ih ihs
  | none => exact .none _
  | some h ih => exact .some ih

theorem DerivesNames.mapSpans {words : List Text} (h : DerivesNames ts words) :
    DerivesNames (ts.map (Token.mapSpan r.map)) words := by
  induction h with
  | single word a => exact .single word _
  | cons word a b h ih => exact .cons word _ _ ih

theorem DerivesParams.mapSpans {words : List Text} (h : DerivesParams ts words) :
    DerivesParams (ts.map (Token.mapSpan r.map)) words := by
  cases h with
  | none => exact .none
  | some h => exact .some (h.mapSpans r)

theorem DerivesInit.mapSpans {init : Option Expr} (h : DerivesInit k ts init) :
    DerivesInit k (ts.map (Token.mapSpan r.map)) (init.map (Expr.mapSpans r.map)) := by
  cases h with
  | none => exact .none k
  | some a h => exact .some _ (h.mapSpans r)

theorem DerivesOptional.mapSpans {value : Option Expr} (h : DerivesOptional k ts value) :
    DerivesOptional k (ts.map (Token.mapSpan r.map)) (value.map (Expr.mapSpans r.map)) := by
  cases h with
  | none => exact .none k
  | some h => exact .some (h.mapSpans r)

mutual

theorem DerivesBlock.mapSpans {k : Nat} {ts : List Token} {body : Block}
    (h : DerivesBlock k ts body) :
    DerivesBlock k (ts.map (Token.mapSpan r.map)) (body.mapSpans r.map) := by
  cases h with
  | mk a b h =>
    rw [Block.mapSpans, ← Token.extent_mapSpan r (List.cons_ne_nil _ _)]
    simp only [List.map_cons, List.map_append]
    exact .mk _ _ (DerivesStmts.mapSpans h)

theorem DerivesElse.mapSpans {k : Nat} {ts : List Token} {body : Option Block}
    (h : DerivesElse k ts body) :
    DerivesElse k (ts.map (Token.mapSpan r.map)) (Block.optionMapSpans r.map body) := by
  cases h with
  | none => exact .none k
  | block a h => exact .block _ (DerivesBlock.mapSpans h)
  | chained a h => exact .chained _ (DerivesStmt.mapSpans h)

/-- Statements that are derived from tokens are derived, moved, from the moved tokens. -/
theorem DerivesStmt.mapSpans {k : Nat} {ts : List Token} {stmt : Stmt}
    (h : DerivesStmt k ts stmt) :
    DerivesStmt k (ts.map (Token.mapSpan r.map)) (stmt.mapSpans r.map) := by
  have hextent {ts : List Token} (hts : ts ≠ []) := (Token.extent_mapSpan r hts).symm
  cases h with
  | block h => exact .block (DerivesBlock.mapSpans h)
  | conditional a hc ht he =>
    rw [Stmt.mapSpans, hextent (List.cons_ne_nil _ _)]
    simp only [List.map_cons, List.map_append]
    exact .conditional _ (hc.mapSpans r) (DerivesBlock.mapSpans ht) (DerivesElse.mapSpans he)
  | whileLoop a hc hb =>
    rw [Stmt.mapSpans, hextent (List.cons_ne_nil _ _)]
    simp only [List.map_cons, List.map_append]
    exact .whileLoop _ (hc.mapSpans r) (DerivesBlock.mapSpans hb)
  | loop a hb =>
    rw [Stmt.mapSpans, hextent (List.cons_ne_nil _ _)]
    exact .loop _ (DerivesBlock.mapSpans hb)
  | breakLoop a b =>
    rw [Stmt.mapSpans, hextent (List.cons_ne_nil _ _)]
    exact .breakLoop k _ _
  | continueLoop a b =>
    rw [Stmt.mapSpans, hextent (List.cons_ne_nil _ _)]
    exact .continueLoop k _ _
  | returnValue a b h =>
    rw [Stmt.mapSpans, hextent (List.cons_ne_nil _ _)]
    simp only [List.map_cons, List.map_append]
    exact .returnValue _ _ (h.mapSpans r)
  | letBinding word a b c h =>
    rw [Stmt.mapSpans, hextent (List.cons_ne_nil _ _)]
    simp only [List.map_cons, List.map_append]
    exact .letBinding word _ _ _ (h.mapSpans r)
  | constBinding word a b c d h =>
    rw [Stmt.mapSpans, hextent (List.cons_ne_nil _ _)]
    simp only [List.map_cons, List.map_append]
    exact .constBinding word _ _ _ _ (h.mapSpans r)
  | function word a b c d hp hb =>
    rw [Stmt.mapSpans, hextent (List.cons_ne_nil _ _)]
    simp only [List.map_cons, List.map_append]
    exact .function word _ _ _ _ (hp.mapSpans r) (DerivesBlock.mapSpans hb)
  | expression a h =>
    rw [Stmt.mapSpans, hextent (List.append_ne_nil_of_right_ne_nil _ (List.cons_ne_nil _ _))]
    simp only [List.map_cons, List.map_append]
    exact .expression _ (h.mapSpans r)

theorem DerivesStmts.mapSpans {k : Nat} {ts : List Token} {stmts : List Stmt}
    (h : DerivesStmts k ts stmts) :
    DerivesStmts k (ts.map (Token.mapSpan r.map)) (Stmt.allMapSpans r.map stmts) := by
  cases h with
  | nil => exact .nil k
  | cons h hs =>
    rw [List.map_append]
    exact .cons (DerivesStmt.mapSpans h) (DerivesStmts.mapSpans hs)

end

end Derivations

end BrookSyntax
