import BrookSyntax.Proofs.Completeness

namespace BrookSyntax

open Source

/-- Nodes of syntax trees. -/
inductive Node where
  | program (program : Program)
  | block (body : Block)
  | stmt (stmt : Stmt)
  | expr (expr : Expr)

namespace Node

def span : Node → Span
  | program p => p.span
  | block body => body.span
  | stmt st => st.span
  | expr e => e.span

/-- The nodes right below a node, in the order of the text. A block that stands as a statement is
one node together with it. -/
def children : Node → List Node
  | program p => p.statements.map stmt
  | block body => body.statements.map stmt
  | stmt (.block body) => body.statements.map stmt
  | stmt (.conditional condition thenBlock elseBlock _) =>
    expr condition :: block thenBlock :: (elseBlock.map block).toList
  | stmt (.whileLoop condition body _) => [expr condition, block body]
  | stmt (.loop body _) => [block body]
  | stmt (.breakLoop _) | stmt (.continueLoop _) => []
  | stmt (.returnValue value _) => (value.map expr).toList
  | stmt (.binding _ _ init _) => (init.map expr).toList
  | stmt (.function _ _ body _) => [block body]
  | stmt (.expression value _) => [expr value]
  | expr (.unary _ operand _) => [expr operand]
  | expr (.binary _ left right _) => [expr left, expr right]
  | expr (.assign target value _) => [expr (.name target), expr value]
  | expr (.call callee args _) => expr callee :: args.map expr
  | expr (.number _ _) | expr (.string _ _) | expr (.bool _ _) | expr (.null _)
  | expr (.name _) => []

/-- A node stands anywhere in the tree below another one, or is that one. -/
inductive Contains : Node → Node → Prop where
  | self (n : Node) : Contains n n
  | child {n m l : Node} (hm : m ∈ n.children) (h : Contains m l) : Contains n l

theorem mem_children_expr {e : Expr} {n : Node} (h : n ∈ (expr e).children) :
    ∃ e', n = expr e' := by
  cases e with
  | number | string | bool | null | name => cases h
  | unary => exact ⟨_, List.mem_singleton.1 h⟩
  | binary | assign =>
    obtain h | h := List.mem_cons.1 h
    · exact ⟨_, h⟩
    · exact ⟨_, List.mem_singleton.1 h⟩
  | call =>
    obtain h | h := List.mem_cons.1 h
    · exact ⟨_, h⟩
    · obtain ⟨e', -, rfl⟩ := List.mem_map.1 h
      exact ⟨e', rfl⟩

theorem Contains.of_expr {e : Expr} {n : Node} (h : (expr e).Contains n) : ∃ e', n = expr e' := by
  generalize hm : expr e = m at h
  induction h generalizing e with
  | self => exact ⟨e, hm.symm⟩
  | child hc _ ih =>
    subst hm
    obtain ⟨e', rfl⟩ := mem_children_expr hc
    exact ih rfl

/-- Nodes one after the other between two offsets, each in a relation to the offsets between which
it stands. -/
inductive Row (R : Node → Nat → Nat → Prop) : Nat → List Node → Nat → Prop where
  | nil {i j : Nat} (hij : i ≤ j) : Row R i [] j
  | cons {i j k l : Nat} {n : Node} {ns : List Node} (hij : i ≤ j) (h : R n j k)
      (hs : Row R k ns l) : Row R i (n :: ns) l

namespace Row

variable {R R' : Node → Nat → Nat → Prop} {i j k : Nat} {n : Node} {ns : List Node}

theorem widen (h : Row R j ns k) (hij : i ≤ j) : Row R i ns k := by
  cases h with
  | nil hjk => exact .nil (Nat.le_trans hij hjk)
  | cons hjk h hs => exact .cons (Nat.le_trans hij hjk) h hs

theorem extend (h : Row R i ns j) (hjk : j ≤ k) : Row R i ns k := by
  induction h with
  | nil hij => exact .nil (Nat.le_trans hij hjk)
  | cons hij h _ ih => exact .cons hij h (ih hjk)

theorem imp (h : Row R i ns j) (hR : ∀ n a b, R n a b → R' n a b) : Row R' i ns j := by
  induction h with
  | nil hij => exact .nil hij
  | cons hij h _ ih => exact .cons hij (hR _ _ _ h) ih

theorem mem (h : Row R i ns j) (hn : n ∈ ns) : ∃ a b, R n a b := by
  induction h with
  | nil => cases hn
  | cons _ h _ ih =>
    obtain rfl | hn := List.mem_cons.1 hn
    · exact ⟨_, _, h⟩
    · exact ih hn

end Row

end Node

section Room

variable {k n : Nat} {ts : List Token}

theorem DerivesExpr.succ {e : Expr} (h : DerivesExpr k n ts e) : DerivesExpr (k + 1) n ts e := by
  induction h using DerivesExpr.rec (motive_2 := fun k ts es _ => DerivesItems (k + 1) ts es)
    (motive_3 := fun k ts es _ => DerivesArgs (k + 1) ts es) with
  | number k value a => exact .number _ value a
  | string k value a => exact .string _ value a
  | true k a => exact .true _ a
  | false k a => exact .false _ a
  | null k a => exact .null _ a
  | name k word a => exact .name _ word a
  | group a b h ih => exact .group a b ih
  | call a b hc ha ihc iha => exact .call a b ihc iha
  | unary op a h ih => exact .unary op a ih
  | binary a hn hl hr ihl ihr => exact .binary a hn ihl ihr
  | assign word a b h ih => exact .assign word a b ih
  | tighter hn h ih => exact .tighter hn ih
  | single h ih => exact .single ih
  | cons a h hs ih ihs => exact .cons a ih ihs
  | none k => exact .none _
  | some h ih => exact .some ih

theorem DerivesInit.succ {init : Option Expr} (h : DerivesInit k ts init) :
    DerivesInit (k + 1) ts init := by
  cases h with
  | none => exact .none _
  | some a h => exact .some a h.succ

theorem DerivesOptional.succ {value : Option Expr} (h : DerivesOptional k ts value) :
    DerivesOptional (k + 1) ts value := by
  cases h with
  | none => exact .none _
  | some h => exact .some h.succ

mutual

theorem DerivesBlock.succ {k : Nat} {ts : List Token} {body : Block} (h : DerivesBlock k ts body) :
    DerivesBlock (k + 1) ts body := by
  cases h with
  | mk a b h => exact .mk a b (DerivesStmts.succ h)

theorem DerivesElse.succ {k : Nat} {ts : List Token} {body : Option Block}
    (h : DerivesElse k ts body) : DerivesElse (k + 1) ts body := by
  cases h with
  | none => exact .none _
  | block a h => exact .block a (DerivesBlock.succ h)
  | chained a h => exact .chained a (DerivesStmt.succ h)

theorem DerivesStmt.succ {k : Nat} {ts : List Token} {stmt : Stmt} (h : DerivesStmt k ts stmt) :
    DerivesStmt (k + 1) ts stmt := by
  cases h with
  | block h => exact .block (DerivesBlock.succ h)
  | conditional a hc ht he =>
    exact .conditional a hc.succ (DerivesBlock.succ ht) (DerivesElse.succ he)
  | whileLoop a hc hb => exact .whileLoop a hc.succ (DerivesBlock.succ hb)
  | loop a hb => exact .loop a (DerivesBlock.succ hb)
  | breakLoop k a b => exact .breakLoop _ a b
  | continueLoop k a b => exact .continueLoop _ a b
  | returnValue a b h => exact .returnValue a b h.succ
  | letBinding word a b c h => exact .letBinding word a b c h.succ
  | constBinding word a b c d h => exact .constBinding word a b c d h.succ
  | function word a b c d hp hb => exact .function word a b c d hp (DerivesBlock.succ hb)
  | expression a h => exact .expression a h.succ

theorem DerivesStmts.succ {k : Nat} {ts : List Token} {stmts : List Stmt}
    (h : DerivesStmts k ts stmts) : DerivesStmts (k + 1) ts stmts := by
  cases h with
  | nil => exact .nil _
  | cons h hs => exact .cons (DerivesStmt.succ h) (DerivesStmts.succ hs)

end

end Room

theorem DerivesStmt.ne_nil {k : Nat} {ts : List Token} {stmt : Stmt}
    (h : DerivesStmt k ts stmt) : ts ≠ [] := by
  obtain ⟨t, rest, rfl, -⟩ := h.starts
  exact List.cons_ne_nil t rest

/-- A node stands between two offsets: tokens there derive it, where `k` constructs more may be
opened inside one another. What follows a statement matters too: if `q` holds, no `else` does. -/
inductive Node.ReadAt (s : Source) (q : Prop) (k : Nat) : Node → Nat → Nat → Prop where
  | expr {i j n : Nat} {ts : List Token} {e : Expr} (hi : i ≤ s.length) (hl : s.LexedAt i ts j)
      (h : DerivesExpr k n ts e) : ReadAt s q k (.expr e) i j
  | stmt {i j : Nat} {ts : List Token} {stmt : Stmt} (hi : i ≤ s.length) (hl : s.LexedAt i ts j)
      (h : DerivesStmt k ts stmt) (hf : q → s.NoElse j) : ReadAt s q k (.stmt stmt) i j
  | block {i j : Nat} {ts : List Token} {body : Block} (hi : i ≤ s.length) (hl : s.LexedAt i ts j)
      (h : DerivesBlock k ts body) : ReadAt s q k (.block body) i j
  | chained {i j : Nat} {ts : List Token} {condition : Expr} {thenBlock : Block}
      {elseBlock : Option Block} {a : Span} (hi : i ≤ s.length) (hl : s.LexedAt i ts j)
      (h : DerivesStmt k ts (.conditional condition thenBlock elseBlock a))
      (hf : q → s.NoElse j) :
      ReadAt s q k (.block (.mk [.conditional condition thenBlock elseBlock a] a)) i j

section Rows

open Node

variable {k i j m n : Nat} {s : Source} {q : Prop} {ts : List Token}

theorem Node.Row.expr {e : Expr} {ns : List Node} (hi : i ≤ s.length) (hl : s.LexedAfter i ts m)
    (h : DerivesExpr k n ts e) (hs : Row (ReadAt s q k) m ns j) :
    Row (ReadAt s q k) i (.expr e :: ns) j :=
  .cons (le_skip hi) (.expr (skip_le hi) (hl.at hi h.ne_nil) h) hs

theorem Node.Row.block {body : Block} {ns : List Node} (hi : i ≤ s.length)
    (hl : s.LexedAfter i ts m) (h : DerivesBlock k ts body) (hs : Row (ReadAt s q k) m ns j) :
    Row (ReadAt s q k) i (.block body :: ns) j :=
  .cons (le_skip hi) (.block (skip_le hi) (hl.at hi h.ne_nil) h) hs

theorem DerivesStmts.row {stmts : List Stmt} (h : DerivesStmts k ts stmts) (hi : i ≤ s.length)
    (hl : s.LexedAfter i ts j) (hf : q → s.NoElse j) :
    Row (ReadAt s q k) i (stmts.map .stmt) j := by
  induction stmts generalizing i ts with
  | nil =>
    cases h
    obtain rfl := hl.of_nil
    exact .nil (Nat.le_refl i)
  | cons stmt stmts ih =>
    cases h with
    | cons h hs =>
      obtain ⟨m, hm, hl⟩ := hl.split hi
      have hlen := (hm.bounds hi).2
      -- No statement starts with `else`, so none follows this one if none follows the last one.
      exact .cons (le_skip hi) (.stmt (skip_le hi) (hm.at hi h.ne_nil) h
        fun hq => hs.noElse hlen hl (hf hq)) (ih hs hlen hl)

theorem DerivesBlock.row {body : Block} (h : DerivesBlock k ts body) (hi : i ≤ s.length)
    (hl : s.LexedAfter i ts j) : Row (ReadAt s q k) i (body.statements.map .stmt) j := by
  cases h with
  | mk a b h =>
    obtain ⟨l, -, -, hil, hlen, hl⟩ := hl.uncons hi
    obtain ⟨m, hm, hl⟩ := hl.split hlen
    have hmlen := (hm.bounds hlen).2
    obtain ⟨e, he, -, hle, -, hl⟩ := hl.uncons hmlen
    obtain rfl := hl.of_nil
    -- The closing brace follows the last statement.
    exact ((h.succ.row hlen hm fun _ => he.noElse (by simp)).widen hil).extend hle

theorem DerivesElse.row {body : Option Block} (h : DerivesElse k ts body) (hi : i ≤ s.length)
    (hl : s.LexedAfter i ts j) (hf : q → s.NoElse j) :
    Row (ReadAt s q k) i (body.map .block).toList j := by
  cases h with
  | none =>
    obtain rfl := hl.of_nil
    exact .nil (Nat.le_refl i)
  | block a h =>
    obtain ⟨l, -, -, hil, hlen, hl⟩ := hl.uncons hi
    exact (Row.block hlen hl h (.nil (Nat.le_refl j))).widen hil
  | chained a h =>
    obtain ⟨l, -, -, hil, hlen, hl⟩ := hl.uncons hi
    exact (Row.cons (le_skip hlen) (.chained (skip_le hlen) (hl.at hlen h.ne_nil) h.succ hf)
      (.nil (Nat.le_refl j))).widen hil

theorem DerivesInit.row {init : Option Expr} (h : DerivesInit k ts init) (hi : i ≤ s.length)
    (hl : s.LexedAfter i ts j) : Row (ReadAt s q k) i (init.map .expr).toList j := by
  cases h with
  | none =>
    obtain rfl := hl.of_nil
    exact .nil (Nat.le_refl i)
  | some a h =>
    obtain ⟨l, -, -, hil, hlen, hl⟩ := hl.uncons hi
    exact (Row.expr hlen hl h (.nil (Nat.le_refl j))).widen hil

theorem DerivesOptional.row {value : Option Expr} (h : DerivesOptional k ts value)
    (hi : i ≤ s.length) (hl : s.LexedAfter i ts j) :
    Row (ReadAt s q k) i (value.map .expr).toList j := by
  cases h with
  | none =>
    obtain rfl := hl.of_nil
    exact .nil (Nat.le_refl i)
  | some h => exact Row.expr hi hl h (.nil (Nat.le_refl j))

theorem DerivesStmt.row {stmt : Stmt} (h : DerivesStmt k ts stmt) (hi : i ≤ s.length)
    (hl : s.LexedAfter i ts j) (hf : q → s.NoElse j) :
    Row (ReadAt s q k) i (Node.stmt stmt).children j := by
  have hij := (hl.bounds hi).1
  cases h with
  | block h => exact h.row hi hl
  | conditional a hc ht he =>
    obtain ⟨l, -, -, hil, hlen, hl⟩ := hl.uncons hi
    obtain ⟨m, hm, hl⟩ := hl.split hlen
    have hmlen := (hm.bounds hlen).2
    obtain ⟨e, hb, hl⟩ := hl.split hmlen
    exact (Row.expr hlen hm hc (.block hmlen hb ht (he.row (hb.bounds hmlen).2 hl hf))).widen hil
  | whileLoop a hc hb =>
    obtain ⟨l, -, -, hil, hlen, hl⟩ := hl.uncons hi
    obtain ⟨m, hm, hl⟩ := hl.split hlen
    have hmlen := (hm.bounds hlen).2
    exact (Row.expr hlen hm hc (.block hmlen hl hb (.nil (Nat.le_refl j)))).widen hil
  | loop a hb =>
    obtain ⟨l, -, -, hil, hlen, hl⟩ := hl.uncons hi
    exact (Row.block hlen hl hb (.nil (Nat.le_refl j))).widen hil
  | breakLoop | continueLoop => exact .nil hij
  | returnValue a b h =>
    obtain ⟨l, -, -, hil, hlen, hl⟩ := hl.uncons hi
    obtain ⟨m, hm, hl⟩ := hl.split hlen
    exact ((h.row hlen hm).widen hil).extend (hl.bounds (hm.bounds hlen).2).1
  | letBinding word a b c h =>
    obtain ⟨l, -, -, hil, hlen, hl⟩ := hl.uncons hi
    obtain ⟨l', -, -, hll, hlen', hl⟩ := hl.uncons hlen
    obtain ⟨m, hm, hl⟩ := hl.split hlen'
    exact ((h.row hlen' hm).widen (Nat.le_trans hil hll)).extend (hl.bounds (hm.bounds hlen').2).1
  | constBinding word a b c d h =>
    obtain ⟨l, -, -, hil, hlen, hl⟩ := hl.uncons hi
    obtain ⟨l', -, -, hll, hlen', hl⟩ := hl.uncons hlen
    obtain ⟨e, -, -, hle, hlen'', hl⟩ := hl.uncons hlen'
    obtain ⟨m, hm, hl⟩ := hl.split hlen''
    exact (Row.expr hlen'' hm h (.nil (hl.bounds (hm.bounds hlen'').2).1)).widen (by omega)
  | function word a b c d hp hb =>
    obtain ⟨l, -, -, hil, hlen, hl⟩ := hl.uncons hi
    obtain ⟨l', -, -, hll, hlen', hl⟩ := hl.uncons hlen
    obtain ⟨e, -, -, hle, hlen'', hl⟩ := hl.uncons hlen'
    obtain ⟨m, hm, hl⟩ := hl.split hlen''
    obtain ⟨hem, hmlen⟩ := hm.bounds hlen''
    obtain ⟨l'', -, -, hml, hlen, hl⟩ := hl.uncons hmlen
    exact (Row.block hlen hl hb (.nil (Nat.le_refl j))).widen (by omega)
  | expression a h =>
    obtain ⟨m, hm, hl⟩ := hl.split hi
    exact Row.expr hi hm h (.nil (hl.bounds (hm.bounds hi).2).1)

theorem Node.ReadAt.row {n : Node} (h : n.ReadAt s q k i j) (hn : ∀ e, n ≠ .expr e) :
    Row (ReadAt s q k) i n.children j := by
  cases h with
  | expr => exact absurd rfl (hn _)
  | stmt hi hl h hf => exact h.row hi hl.after_here hf
  | block hi hl h => exact h.row hi hl.after_here
  | chained hi hl h hf => exact .cons (Nat.le_refl i) (.stmt hi hl h hf) (.nil (Nat.le_refl j))

/-- Every node in the tree below one that stands somewhere stands somewhere itself, or it is in an
expression that does. -/
theorem Node.ReadAt.of_contains {n l : Node} (h : n.ReadAt s q k i j) (hc : n.Contains l) :
    (∃ a b, l.ReadAt s q k a b) ∨
      ∃ e a b, (Node.expr e).ReadAt s q k a b ∧ (Node.expr e).Contains l := by
  induction hc generalizing i j with
  | self => exact .inl ⟨i, j, h⟩
  | @child n m l hm hc ih =>
    by_cases hn : ∃ e, n = .expr e
    · obtain ⟨e, rfl⟩ := hn
      exact .inr ⟨e, i, j, h, .child hm hc⟩
    · obtain ⟨a, b, h⟩ := (h.row fun e he => hn ⟨e, he⟩).mem hm
      exact ih h

theorem Node.ReadAt.succ {n : Node} (h : n.ReadAt s q k i j) : n.ReadAt s q (k + 1) i j := by
  cases h with
  | expr hi hl h => exact .expr hi hl h.succ
  | stmt hi hl h hf => exact .stmt hi hl h.succ hf
  | block hi hl h => exact .block hi hl h.succ
  | chained hi hl h hf => exact .chained hi hl h.succ hf

/-- The parts of an expression stand one after the other where it stands, each with the parentheses
around it. -/
theorem DerivesExpr.row {e : Expr} (h : DerivesExpr k n ts e) :
    ∀ {i j : Nat}, i ≤ s.length → s.LexedAfter i ts j →
      Row (ReadAt s q k) i (Node.expr e).children j := by
  induction h using DerivesExpr.rec
    (motive_2 := fun k ts es _ => ∀ {i j : Nat}, i ≤ s.length → s.LexedAfter i ts j →
      Row (ReadAt s q k) i (es.map .expr) j)
    (motive_3 := fun k ts es _ => ∀ {i j : Nat}, i ≤ s.length → s.LexedAfter i ts j →
      Row (ReadAt s q k) i (es.map .expr) j) with
  | number | string | true | false | null | name =>
    intro i j hi hl
    exact .nil (hl.bounds hi).1
  | group a b h ih =>
    intro i j hi hl
    obtain ⟨l, -, -, hil, hlen, hl⟩ := hl.uncons hi
    obtain ⟨m, hm, hl⟩ := hl.split hlen
    have hmj := (hl.bounds (hm.bounds hlen).2).1
    exact (((ih hlen hm).imp fun _ _ _ h => h.succ).widen hil).extend hmj
  | call a b hc ha ihc iha =>
    intro i j hi hl
    obtain ⟨m, hm, hl⟩ := hl.split hi
    obtain ⟨l, -, -, hml, hlen, hl⟩ := hl.uncons (hm.bounds hi).2
    obtain ⟨m', hm', hl⟩ := hl.split hlen
    have hmj := (hl.bounds (hm'.bounds hlen).2).1
    have hargs := (((iha hlen hm').imp fun _ _ _ h => h.succ).widen hml).extend hmj
    exact Row.expr hi hm hc hargs
  | unary op a h ih =>
    intro i j hi hl
    obtain ⟨l, -, -, hil, hlen, hl⟩ := hl.uncons hi
    exact (Row.expr hlen hl h.succ (.nil (Nat.le_refl j))).widen hil
  | binary a hn hl hr ihl ihr =>
    intro i j hi hlex
    obtain ⟨m, hm, hlex⟩ := hlex.split hi
    obtain ⟨l, -, -, hml, hlen, hlex⟩ := hlex.uncons (hm.bounds hi).2
    exact Row.expr hi hm hl ((Row.expr hlen hlex hr (.nil (Nat.le_refl j))).widen hml)
  | @assign k ts e word a b h ih =>
    intro i j hi hl
    have hcons : s.LexedAfter i ([.name word a] ++ .mark "=" b :: ts) j := hl
    obtain ⟨m, hm, hl⟩ := hcons.split hi
    obtain ⟨l, -, -, hml, hlen, hl⟩ := hl.uncons (hm.bounds hi).2
    have hvalue := Row.expr hlen hl h.succ (q := q) (.nil (Nat.le_refl j))
    exact Row.expr hi hm (.name (k + 1) word a) (hvalue.widen hml)
  | tighter hn h ih => exact ih
  | single h ih hi hl => exact Row.expr hi hl h (.nil (Nat.le_refl _))
  | cons a h hs ih ihs hi hl =>
    obtain ⟨m, hm, hl⟩ := hl.split hi
    obtain ⟨l, -, -, hml, hlen, hl⟩ := hl.uncons (hm.bounds hi).2
    exact Row.expr hi hm h ((ihs hlen hl).widen hml)
  | none k hi hl =>
    obtain rfl := hl.of_nil
    exact .nil (Nat.le_refl _)
  | some h ih hi hl => exact ih hi hl

theorem Node.ReadAt.expr_of_contains {n : Node} {e : Expr} (h : n.ReadAt s q k i j)
    (hc : n.Contains (.expr e)) : ∃ a b, (Node.expr e).ReadAt s q k a b := by
  have inside {e' : Expr} {l m : Node} (hc : l.Contains m) (hl : l = .expr e') :
      ∀ {a b}, l.ReadAt s q k a b → ∃ a b, m.ReadAt s q k a b := by
    induction hc generalizing e' with
    | self => exact fun h => ⟨_, _, h⟩
    | child hm _ ih =>
      subst hl
      obtain ⟨e'', rfl⟩ := mem_children_expr hm
      rintro a b (⟨ha, hl, h⟩)
      obtain ⟨a, b, h⟩ := (h.row ha hl.after_here).mem hm
      exact ih rfl h
  obtain h | ⟨e', a, b, h, hc⟩ := h.of_contains hc
  · exact h
  · exact inside hc rfl h

end Rows

end BrookSyntax
