import BrookSyntax.Proofs.Nodes

namespace BrookSyntax

namespace Node

/-- The nodes right below a node, in the order of the text, each with the levels of nesting that the
way to it costs: one from a block to its statements, from an operator before its operand, from a
target to its value and from a call to its arguments. -/
def edges : Node → List (Nat × Node)
  | program p => p.statements.map fun st => (0, stmt st)
  | block body => body.statements.map fun st => (1, stmt st)
  | stmt (.block body) => body.statements.map fun st => (1, stmt st)
  | stmt (.conditional condition thenBlock elseBlock _) =>
    (0, expr condition) :: (0, block thenBlock) ::
      (elseBlock.map fun body => (0, block body)).toList
  | stmt (.whileLoop condition body _) => [(0, expr condition), (0, block body)]
  | stmt (.loop body _) => [(0, block body)]
  | stmt (.breakLoop _) | stmt (.continueLoop _) => []
  | stmt (.returnValue value _) => (value.map fun e => (0, expr e)).toList
  | stmt (.binding _ _ init _) => (init.map fun e => (0, expr e)).toList
  | stmt (.function _ _ body _) => [(0, block body)]
  | stmt (.expression value _) => [(0, expr value)]
  | expr (.unary _ operand _) => [(1, expr operand)]
  | expr (.binary _ left right _) => [(0, expr left), (0, expr right)]
  | expr (.assign target value _) => [(0, expr (.name target)), (1, expr value)]
  | expr (.call callee args _) => (0, expr callee) :: args.map fun arg => (1, expr arg)
  | expr (.number _ _) | expr (.string _ _) | expr (.bool _ _) | expr (.null _)
  | expr (.name _) => []

/-- The edges go to all children, in their order. -/
theorem edges_children (n : Node) : n.edges.map Prod.snd = n.children := by
  cases n with
  | program p => simp [edges, children, Function.comp_def]
  | block body => simp [edges, children, Function.comp_def]
  | stmt st =>
    cases st with
    | conditional _ _ elseBlock => cases elseBlock <;> simp [edges, children]
    | returnValue value => cases value <;> simp [edges, children]
    | binding _ _ init => cases init <;> simp [edges, children]
    | _ => simp [edges, children, Function.comp_def]
  | expr e => cases e <;> simp [edges, children, Function.comp_def]

/-- A way from a node down to another one, with the levels that it costs. -/
inductive Path : Node → Nat → Node → Prop where
  | here (n : Node) : Path n 0 n
  | down {n m l : Node} {i j : Nat} (he : (i, m) ∈ n.edges) (h : Path m j l) : Path n (i + j) l

/-- No way down from the node costs more than `k` levels. -/
def NestsWithin (k : Nat) (n : Node) : Prop := ∀ ⦃j l⦄, Path n j l → j ≤ k

variable {n : Node} {i k : Nat}

theorem NestsWithin.of_edges
    (h : ∀ i m, (i, m) ∈ n.edges → ∃ j, i + j ≤ k ∧ m.NestsWithin j) : n.NestsWithin k := by
  intro j l hp
  cases hp with
  | here => exact Nat.zero_le k
  | down he hp =>
    obtain ⟨j, hle, hm⟩ := h _ _ he
    have := hm hp
    omega

theorem NestsWithin.leaf (h : n.edges = []) : n.NestsWithin k := by
  apply NestsWithin.of_edges
  intro i m he
  rw [h] at he
  cases he

theorem NestsWithin.of_map {α : Type} {f : α → Node} (as : List α) {j : Nat}
    (hn : n.edges = as.map fun a => (i, f a)) (h : ∀ a ∈ as, (f a).NestsWithin j)
    (hk : i + j ≤ k) : n.NestsWithin k := by
  apply NestsWithin.of_edges
  intro i' m he
  rw [hn] at he
  obtain ⟨a, ha, heq⟩ := List.mem_map.1 he
  cases heq
  exact ⟨j, hk, h a ha⟩

theorem NestsWithin.of_option {α : Type} {f : α → Node} {o : Option α}
    (hn : n.edges = (o.map fun a => (0, f a)).toList) (h : ∀ a ∈ o, (f a).NestsWithin k) :
    n.NestsWithin k := by
  apply NestsWithin.of_edges
  intro i m he
  rw [hn, Option.mem_toList, Option.map_eq_some_iff] at he
  obtain ⟨a, ha, heq⟩ := he
  cases heq
  exact ⟨k, by omega, h a ha⟩

end Node

open Node

section Derivations

variable {k n : Nat} {ts : List Token}

/-- Expressions nest as deep as constructs were opened for them: those in parentheses, whose opening
leaves no edge, less deep. -/
theorem DerivesExpr.nestsWithin {e : Expr} (h : DerivesExpr k n ts e) :
    (Node.expr e).NestsWithin k := by
  induction h using DerivesExpr.rec
    (motive_2 := fun k _ es _ => ∀ e ∈ es, (Node.expr e).NestsWithin k)
    (motive_3 := fun k _ es _ => ∀ e ∈ es, (Node.expr e).NestsWithin k) with
  | number | string | true | false | null | name => exact .leaf rfl
  | group a b h ih =>
    intro j l hp
    have := ih hp
    omega
  | @call k _ _ callee args a b hc ha ihc iha =>
    apply NestsWithin.of_edges
    intro i m he
    obtain heq | he := List.mem_cons.1 he
    · cases heq
      exact ⟨k + 1, by omega, ihc⟩
    · obtain ⟨arg, harg, heq⟩ := List.mem_map.1 he
      cases heq
      exact ⟨k, by omega, iha arg harg⟩
  | @unary k _ e op a h ih =>
    exact .of_map (f := Node.expr) [e] rfl (List.forall_mem_singleton.2 ih) (by omega)
  | @binary k _ _ _ left right op a hn hl hr ihl ihr =>
    exact .of_map (f := Node.expr) [left, right] rfl
      (List.forall_mem_cons.2 ⟨ihl, List.forall_mem_singleton.2 ihr⟩) (by omega)
  | @assign k _ e word a b h ih =>
    apply NestsWithin.of_edges
    intro i m he
    obtain heq | he := List.mem_cons.1 he
    · cases heq
      exact ⟨0, by omega, .leaf rfl⟩
    · cases List.mem_singleton.1 he
      exact ⟨k, by omega, ih⟩
  | tighter hn h ih => exact ih
  | single h ih e he => rwa [List.mem_singleton.1 he]
  | cons a h hs ih ihs e he =>
    obtain rfl | he := List.mem_cons.1 he
    · exact ih
    · exact ihs e he
  | none k e he => cases he
  | some h ih e he => exact ih e he

mutual

theorem DerivesBlock.nestsWithin {k : Nat} {ts : List Token} {body : Block}
    (h : DerivesBlock k ts body) : (Node.block body).NestsWithin k := by
  cases h with
  | mk a b h => exact .of_map (f := Node.stmt) _ rfl (DerivesStmts.nestsWithin h) (by omega)

theorem DerivesElse.nestsWithin {k : Nat} {ts : List Token} {body : Option Block}
    (h : DerivesElse k ts body) : ∀ b ∈ body, (Node.block b).NestsWithin k := by
  cases h with
  | none => exact nofun
  | block a h =>
    rintro _ ⟨⟩
    exact DerivesBlock.nestsWithin h
  | chained a h =>
    rintro _ ⟨⟩
    exact .of_map (f := Node.stmt) _ rfl
      (List.forall_mem_singleton.2 (DerivesStmt.nestsWithin h)) (by omega)

theorem DerivesStmt.nestsWithin {k : Nat} {ts : List Token} {stmt : Stmt}
    (h : DerivesStmt k ts stmt) : (Node.stmt stmt).NestsWithin k := by
  cases h with
  | block h =>
    cases h with
    | mk a b h => exact .of_map (f := Node.stmt) _ rfl (DerivesStmts.nestsWithin h) (by omega)
  | conditional a hc ht he =>
    have hcondition := hc.nestsWithin
    have hthen := DerivesBlock.nestsWithin ht
    have helse := DerivesElse.nestsWithin he
    apply NestsWithin.of_edges
    intro i m he
    obtain heq | he := List.mem_cons.1 he
    · cases heq
      exact ⟨k, by omega, hcondition⟩
    obtain heq | he := List.mem_cons.1 he
    · cases heq
      exact ⟨k, by omega, hthen⟩
    · rw [Option.mem_toList, Option.map_eq_some_iff] at he
      obtain ⟨body, hbody, heq⟩ := he
      cases heq
      exact ⟨k, by omega, helse body hbody⟩
  | whileLoop a hc hb =>
    have hcondition := hc.nestsWithin
    have hbody := DerivesBlock.nestsWithin hb
    apply NestsWithin.of_edges
    intro i m he
    obtain heq | he := List.mem_cons.1 he
    · cases heq
      exact ⟨k, by omega, hcondition⟩
    · cases List.mem_singleton.1 he
      exact ⟨k, by omega, hbody⟩
  | @loop _ _ body a hb =>
    exact .of_map (f := Node.block) [body] rfl
      (List.forall_mem_singleton.2 (DerivesBlock.nestsWithin hb)) (by omega)
  | breakLoop | continueLoop => exact .leaf rfl
  | returnValue a b h =>
    refine .of_option (f := Node.expr) rfl fun e he => ?_
    cases h with
    | none => cases he
    | some h =>
      cases he
      exact h.nestsWithin
  | letBinding word a b c h =>
    refine .of_option (f := Node.expr) rfl fun e he => ?_
    cases h with
    | none => cases he
    | some a h =>
      cases he
      exact h.nestsWithin
  | @constBinding _ _ init word a b c d h =>
    exact .of_map (f := Node.expr) [init] rfl
      (List.forall_mem_singleton.2 h.nestsWithin) (by omega)
  | @function _ _ _ _ body word a b c d hp hb =>
    exact .of_map (f := Node.block) [body] rfl
      (List.forall_mem_singleton.2 (DerivesBlock.nestsWithin hb)) (by omega)
  | @expression _ _ value a h =>
    exact .of_map (f := Node.expr) [value] rfl
      (List.forall_mem_singleton.2 h.nestsWithin) (by omega)

theorem DerivesStmts.nestsWithin {k : Nat} {ts : List Token} {stmts : List Stmt}
    (h : DerivesStmts k ts stmts) : ∀ stmt ∈ stmts, (Node.stmt stmt).NestsWithin k := by
  cases h with
  | nil => exact nofun
  | cons h hs =>
    exact List.forall_mem_cons.2 ⟨DerivesStmt.nestsWithin h, DerivesStmts.nestsWithin hs⟩

end

end Derivations

namespace Grammar

/-- The limit on nesting bounds the trees: a statement or an expression read at some depth nests no
deeper than the levels that are left there, and a program no deeper than the limit. -/
theorem nesting_bounded (s : Source) (c d : Cursor) (hc : c.offset ≤ s.length) :
    (∀ p, c.depth = 0 → program s c = .ok d p → ∀ j l, (Node.program p).Path j l → j ≤ 128) ∧
    (∀ stmt, c.depth ≤ 128 → statement s c = .ok d stmt →
      ∀ j l, (Node.stmt stmt).Path j l → (j : Int) ≤ 128 - c.depth) ∧
    ∀ e, c.depth ≤ 128 → expression s c = .ok d e →
      ∀ j l, (Node.expr e).Path j l → (j : Int) ≤ 128 - c.depth := by
  have hroom : c.room = (128 - c.depth).toNat := rfl
  refine ⟨fun p hd hok j l hp => ?_, fun stmt hd hok j l hp => ?_, fun e hd hok j l hp => ?_⟩
  · obtain ⟨ts, m, -, -, hs, -⟩ := program_lexed hc hok
    have hnests : (Node.program p).NestsWithin c.room :=
      .of_map (f := Node.stmt) _ rfl hs.nestsWithin (by omega)
    have := hnests hp
    omega
  · obtain ⟨-, ts, -, h⟩ := statement_reads hc rfl hok
    have := h.nestsWithin hp
    omega
  · obtain ⟨-, ts, -, h⟩ := expression_reads hc rfl hok
    have := h.nestsWithin hp
    omega

/-- Two signs use up the two levels that are left at depth 126. -/
theorem nesting_bounded_signs :
    0 ≤ (Source.ofText "--a").length ∧ ∃ operand a b d,
      expression (.ofText "--a") ⟨0, 126⟩ = .ok d (.unary .neg (.unary .neg operand b) a) ∧
      (Node.expr (.unary .neg (.unary .neg operand b) a)).Path 2 (.expr operand) ∧
      ((2 : Nat) : Int) ≤ 128 - 126 := by
  have hok : ∃ operand a b d, expression (.ofText "--a") ⟨0, 126⟩ =
      .ok d (.unary .neg (.unary .neg operand b) a) := ⟨_, _, _, _, rfl⟩
  obtain ⟨operand, a, b, d, hok⟩ := hok
  have hpath : (Node.expr (.unary .neg (.unary .neg operand b) a)).Path 2 (.expr operand) :=
    .down (i := 1) (j := 1) (List.mem_singleton_self _)
      (.down (i := 1) (j := 0) (List.mem_singleton_self _) (.here _))
  exact ⟨Nat.zero_le _, operand, a, b, d, hok, hpath,
    (nesting_bounded (.ofText "--a") ⟨0, 126⟩ d (Nat.zero_le _)).2.2 _ (by decide) hok 2 _ hpath⟩

end Grammar

end BrookSyntax
