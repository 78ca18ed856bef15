import BrookSyntax.Proofs.Completeness
import BrookSyntax.Proofs.PrintedTokens

namespace BrookSyntax

namespace Token

variable {ts : List Token} {k : TokenKind} {kinds kinds' : List TokenKind}

theorem of_kinds_cons (h : ts.map kind = k :: kinds) :
    ∃ a rest, ts = ⟨k, a⟩ :: rest ∧ rest.map kind = kinds := by
  obtain ⟨⟨k', a⟩, rest, rfl, rfl, hrest⟩ := List.map_eq_cons_iff.1 h
  exact ⟨a, rest, rfl, hrest⟩

theorem of_kinds_singleton (h : ts.map kind = [k]) : ∃ a, ts = [⟨k, a⟩] := by
  obtain ⟨a, rest, rfl, hrest⟩ := of_kinds_cons h
  rw [List.map_eq_nil_iff] at hrest
  subst hrest
  exact ⟨a, rfl⟩

theorem of_kinds_snoc (h : ts.map kind = kinds ++ [k]) :
    ∃ rest a, ts = rest ++ [⟨k, a⟩] ∧ rest.map kind = kinds := by
  obtain ⟨rest, last, rfl, hrest, hlast⟩ := List.map_eq_append_iff.1 h
  obtain ⟨a, rfl⟩ := of_kinds_singleton hlast
  exact ⟨rest, a, rfl, hrest⟩

end Token

namespace Expr

open Token

theorem level_bounds (e : Expr) : 1 ≤ e.level ∧ e.level ≤ 10 := by
  cases e with
  | binary op left right a =>
    have := op.precedence_bounds
    rw [level]
    omega
  | _ => simp only [level, Nat.reduceLeDiff, and_self]

theorem placed_derives {e : Expr} {n k : Nat} {ts : List Token}
    (ih : ∀ {k ts}, ts.map kind = e.tokens → e.nesting ≤ k →
      ∃ e', DerivesExpr k e.level ts e' ∧ e'.bare = e.bare)
    (hts : ts.map kind = e.placed n e.tokens) (hk : e.placedNesting n e.nesting ≤ k)
    (hn : 1 ≤ n) (hn' : n ≤ 10) : ∃ e', DerivesExpr k n ts e' ∧ e'.bare = e.bare := by
  rw [placed] at hts
  rw [placedNesting] at hk
  split at hts
  · next hlt =>
    rw [if_pos hlt] at hk
    obtain ⟨k, rfl⟩ := Nat.exists_eq_add_of_le' (Nat.le_trans (Nat.le_add_left 1 _) hk)
    obtain ⟨a, rest, rfl, hrest⟩ := of_kinds_cons hts
    obtain ⟨inner, b, rfl, hinner⟩ := of_kinds_snoc hrest
    obtain ⟨e', he, hbare⟩ := ih hinner (Nat.le_of_add_le_add_right hk)
    have hgroup := DerivesExpr.group a b (he.loosen (Nat.le_refl 1) e.level_bounds.1)
    exact ⟨e', hgroup.loosen hn hn', hbare⟩
  · next hle =>
    rw [if_neg hle] at hk
    obtain ⟨e', he, hbare⟩ := ih hts hk
    exact ⟨e', he.loosen hn (Nat.le_of_not_lt hle), hbare⟩

mutual

theorem exists_derives (e : Expr) {k : Nat} {ts : List Token} (hts : ts.map kind = e.tokens)
    (hk : e.nesting ≤ k) : ∃ e', DerivesExpr k e.level ts e' ∧ e'.bare = e.bare := by
  cases e with
  | number value a =>
    obtain ⟨b, rfl⟩ := of_kinds_singleton hts
    exact ⟨_, .number k value b, rfl⟩
  | string value a =>
    obtain ⟨b, rfl⟩ := of_kinds_singleton hts
    exact ⟨_, .string k value b, rfl⟩
  | bool value a =>
    obtain ⟨b, rfl⟩ := of_kinds_singleton hts
    cases value with
    | true => exact ⟨_, .true k b, rfl⟩
    | false => exact ⟨_, .false k b, rfl⟩
  | null a =>
    obtain ⟨b, rfl⟩ := of_kinds_singleton hts
    exact ⟨_, .null k b, rfl⟩
  | name n =>
    obtain ⟨b, rfl⟩ := of_kinds_singleton hts
    exact ⟨_, .name k n.text b, rfl⟩
  | unary op operand a =>
    rw [nesting] at hk
    obtain ⟨k, rfl⟩ := Nat.exists_eq_add_of_le' (Nat.le_trans (Nat.le_add_left 1 _) hk)
    obtain ⟨b, rest, rfl, hrest⟩ := of_kinds_cons hts
    obtain ⟨e', he, hbare⟩ := placed_derives operand.exists_derives hrest
      (Nat.le_of_add_le_add_right hk) (by decide) (by decide)
    refine ⟨_, .unary op b he, ?_⟩
    rw [bare, hbare, bare]
  | binary op left right a =>
    rw [nesting, Nat.max_le] at hk
    have hop := op.precedence_bounds
    obtain ⟨us, rest, rfl, hus, hrest⟩ := List.map_eq_append_iff.1 hts
    obtain ⟨b, vs, rfl, hvs⟩ := of_kinds_cons hrest
    obtain ⟨l, hl, hbarel⟩ := placed_derives left.exists_derives hus hk.1 (by omega) (by omega)
    obtain ⟨r, hr, hbarer⟩ := placed_derives right.exists_derives hvs hk.2 (by omega) (by omega)
    refine ⟨_, .binary b rfl hl hr, ?_⟩
    rw [bare, hbarel, hbarer, bare]
  | assign target value a =>
    rw [nesting] at hk
    obtain ⟨k, rfl⟩ := Nat.exists_eq_add_of_le' (Nat.le_trans (Nat.le_add_left 1 _) hk)
    obtain ⟨b, rest, rfl, hrest⟩ := of_kinds_cons hts
    obtain ⟨c, us, rfl, hus⟩ := of_kinds_cons hrest
    obtain ⟨e', he, hbare⟩ := value.exists_derives hus (Nat.le_of_add_le_add_right hk)
    refine ⟨_, .assign target.text b c (he.loosen (Nat.le_refl 1) value.level_bounds.1), ?_⟩
    rw [bare, hbare, bare]
  | call callee args a =>
    rw [nesting, Nat.max_le] at hk
    obtain ⟨hkc, hka⟩ := hk
    obtain ⟨k, rfl⟩ := Nat.exists_eq_add_of_le' (Nat.le_trans (Nat.le_add_left 1 _) hka)
    obtain ⟨us, rest, rfl, hus, hrest⟩ := List.map_eq_append_iff.1 hts
    obtain ⟨b, inner, rfl, hinner⟩ := of_kinds_cons hrest
    obtain ⟨vs, c, rfl, hvs⟩ := of_kinds_snoc hinner
    obtain ⟨f, hf, hbaref⟩ :=
      placed_derives callee.exists_derives hus hkc (by decide) (by decide)
    obtain ⟨es, hes, hbarees⟩ := exists_derivesArgs args hvs (Nat.le_of_add_le_add_right hka)
    refine ⟨_, .call b c hf hes, ?_⟩
    rw [bare, hbaref, hbarees, bare]

theorem exists_derivesArgs (args : List Expr) {k : Nat} {ts : List Token}
    (hts : ts.map kind = [.mark ","].intercalate (allTokens args)) (hk : allNesting args ≤ k) :
    ∃ es, DerivesArgs k ts es ∧ allBare es = allBare args := by
  cases args with
  | nil =>
    rw [List.map_eq_nil_iff.1 hts]
    exact ⟨[], .none k, rfl⟩
  | cons e rest =>
    rw [allNesting, Nat.max_le] at hk
    obtain ⟨hke, hkr⟩ := hk
    cases hr : rest with
    | nil =>
      rw [hr, allTokens, allTokens, List.intercalate_singleton] at hts
      obtain ⟨e', he, hbare⟩ := e.exists_derives hts hke
      refine ⟨[e'], .some (.single (he.loosen (Nat.le_refl 1) e.level_bounds.1)), ?_⟩
      rw [allBare, hbare]
      rfl
    | cons e₂ rest₂ =>
      have hsplit : [TokenKind.mark ","].intercalate (allTokens (e :: rest)) =
          e.tokens ++ .mark "," :: [TokenKind.mark ","].intercalate (allTokens rest) := by
        rw [hr, allTokens, allTokens, List.intercalate_cons_cons, List.append_assoc]
        rfl
      rw [hsplit] at hts
      obtain ⟨us, more, rfl, hus, hmore⟩ := List.map_eq_append_iff.1 hts
      obtain ⟨a, vs, rfl, hvs⟩ := of_kinds_cons hmore
      obtain ⟨e', he, hbare⟩ := e.exists_derives hus hke
      obtain ⟨es, hes, hbarees⟩ := exists_derivesArgs rest hvs hkr
      rw [← hr]
      cases hes with
      | none =>
        rw [hr] at hbarees
        cases hbarees
      | some hes =>
        refine ⟨e' :: es, .some (.cons a (he.loosen (Nat.le_refl 1) e.level_bounds.1) hes), ?_⟩
        rw [allBare, hbare, hbarees, allBare]

end

/-- The tokens of an expression derive the expression where any expression may stand. -/
theorem exists_derives_loose (e : Expr) {k : Nat} {ts : List Token}
    (hts : ts.map kind = e.tokens) (hk : e.nesting ≤ k) :
    ∃ e', DerivesExpr k 1 ts e' ∧ e'.bare = e.bare := by
  obtain ⟨e', he, hbare⟩ := e.exists_derives hts hk
  exact ⟨e', he.loosen (Nat.le_refl 1) e.level_bounds.1, hbare⟩

end Expr

section Statements

open Token

variable {chained : Block → Bool} {k : Nat} {ts : List Token}

theorem exists_derivesOptional {value : Option Expr}
    (hts : ts.map kind = value.elim [] Expr.tokens) (hk : value.elim 0 Expr.nesting ≤ k) :
    ∃ value', DerivesOptional k ts value' ∧ value'.map Expr.bare = value.map Expr.bare := by
  cases value with
  | none =>
    rw [List.map_eq_nil_iff.1 hts]
    exact ⟨none, .none k, rfl⟩
  | some e =>
    obtain ⟨e', he, hbare⟩ := e.exists_derives_loose hts hk
    refine ⟨some e', .some he, ?_⟩
    rw [Option.map_some, hbare, Option.map_some]

theorem exists_derivesInit {init : Option Expr}
    (hts : ts.map kind = init.elim [] fun value => .mark "=" :: value.tokens)
    (hk : init.elim 0 Expr.nesting ≤ k) :
    ∃ init', DerivesInit k ts init' ∧ init'.map Expr.bare = init.map Expr.bare := by
  cases init with
  | none =>
    rw [List.map_eq_nil_iff.1 hts]
    exact ⟨none, .none k, rfl⟩
  | some e =>
    obtain ⟨a, rest, rfl, hrest⟩ := of_kinds_cons hts
    obtain ⟨e', he, hbare⟩ := e.exists_derives_loose hrest hk
    refine ⟨some e', .some a he, ?_⟩
    rw [Option.map_some, hbare, Option.map_some]

theorem derivesParams_of_kinds {params : List Text}
    (hts : ts.map kind = [.mark ","].intercalate (params.map fun word => [.name word])) :
    DerivesParams ts params := by
  induction params generalizing ts with
  | nil =>
    rw [List.map_eq_nil_iff.1 hts]
    exact .none
  | cons word words ih =>
    cases words with
    | nil =>
      obtain ⟨a, rfl⟩ := of_kinds_singleton hts
      exact .some (.single word a)
    | cons word₂ words =>
      obtain ⟨a, rest, rfl, hrest⟩ := of_kinds_cons hts
      obtain ⟨b, us, rfl, hus⟩ := of_kinds_cons hrest
      cases ih hus with
      | some hnames => exact .some (.cons word a b hnames)

theorem Block.isConditional_iff {stmts : List Stmt} {a : Span} :
    (Block.mk stmts a).isConditional ↔
      ∃ condition thenBlock elseBlock b,
        stmts = [.conditional condition thenBlock elseBlock b] := by
  constructor
  · intro h
    unfold Block.isConditional at h
    split at h
    · next hbody =>
      cases hbody
      exact ⟨_, _, _, _, rfl⟩
    · cases h
  · rintro ⟨condition, thenBlock, elseBlock, b, rfl⟩
    rfl

theorem Stmt.bare_eq_conditional {stmt : Stmt} {condition : Expr} {thenBlock : Block}
    {elseBlock : Option Block} {a : Span}
    (h : stmt.bare = (Stmt.conditional condition thenBlock elseBlock a).bare) :
    ∃ condition' thenBlock' elseBlock' b,
      stmt = .conditional condition' thenBlock' elseBlock' b := by
  cases stmt with
  | conditional condition' thenBlock' elseBlock' b => exact ⟨_, _, _, _, rfl⟩
  | _ => simp only [Stmt.bare, reduceCtorEq] at h

theorem exists_derivesElse_chained {stmts stmts' : List Stmt} (a b : Span)
    (hs : DerivesStmts k ts stmts') (hbare : Stmt.allBare stmts' = Stmt.allBare stmts)
    (hcond : (Block.mk stmts b).isConditional) :
    ∃ body', DerivesElse (k + 1) (.keyword "else" a :: ts) (some body') ∧
      body'.bare = (Block.mk stmts b).bare := by
  obtain ⟨condition, thenBlock, elseBlock, c, rfl⟩ := Block.isConditional_iff.1 hcond
  cases hs with
  | nil => cases hbare
  | cons hst hrest =>
    obtain ⟨hhead, htail⟩ := List.cons.inj hbare
    cases hrest with
    | nil =>
      obtain ⟨condition', thenBlock', elseBlock', d, rfl⟩ := Stmt.bare_eq_conditional hhead
      rw [List.append_nil]
      refine ⟨_, .chained a hst, ?_⟩
      rw [Block.bare, hbare, Block.bare]
    | cons => cases htail

mutual

theorem Block.exists_derives (body : Block) {k : Nat} {ts : List Token} (hb : body.WellFormed)
    (hts : ts.map kind = .mark "\x7b" :: (body.tokens chained ++ [.mark "\x7d"]))
    (hk : body.nesting + 1 ≤ k) : ∃ body', DerivesBlock k ts body' ∧ body'.bare = body.bare := by
  obtain ⟨stmts, a⟩ := body
  obtain ⟨k, rfl⟩ := Nat.exists_eq_add_of_le' (Nat.le_trans (Nat.le_add_left 1 _) hk)
  obtain ⟨b, rest, rfl, hrest⟩ := of_kinds_cons hts
  obtain ⟨inner, c, rfl, hinner⟩ := of_kinds_snoc hrest
  obtain ⟨stmts', hs, hbare⟩ :=
    Stmt.exists_allDerives stmts hb hinner (Nat.le_of_add_le_add_right hk)
  refine ⟨_, .mk b c hs, ?_⟩
  rw [Block.bare, hbare, Block.bare]

theorem Block.exists_derivesElse (elseBlock : Option Block) {k : Nat} {ts : List Token}
    (hb : Block.OptionWellFormed elseBlock)
    (hts : ts.map kind = Block.elseTokens chained elseBlock)
    (hk : Block.elseNesting elseBlock ≤ k) :
    ∃ body', DerivesElse k ts body' ∧ Block.optionBare body' = Block.optionBare elseBlock := by
  cases elseBlock with
  | none =>
    rw [List.map_eq_nil_iff.1 hts]
    exact ⟨none, .none k, rfl⟩
  | some body =>
    obtain ⟨a, rest, rfl, hrest⟩ := of_kinds_cons hts
    split at hrest
    · next hchained =>
      obtain ⟨stmts, b⟩ := body
      obtain ⟨k, rfl⟩ := Nat.exists_eq_add_of_le' (Nat.le_trans (Nat.le_add_left 1 _) hk)
      obtain ⟨stmts', hs, hbare⟩ :=
        Stmt.exists_allDerives stmts hb hrest (Nat.le_of_add_le_add_right hk)
      obtain ⟨body', helse, hbareb⟩ :=
        exists_derivesElse_chained a b hs hbare (Bool.and_eq_true_iff.1 hchained).2
      refine ⟨some body', helse, ?_⟩
      rw [Block.optionBare, hbareb, Block.optionBare]
    · obtain ⟨body', hbody, hbare⟩ := body.exists_derives hb hrest hk
      refine ⟨some body', .block a hbody, ?_⟩
      rw [Block.optionBare, hbare, Block.optionBare]

theorem Stmt.exists_derives (stmt : Stmt) {k : Nat} {ts : List Token} (hw : stmt.WellFormed)
    (hts : ts.map kind = stmt.tokens chained) (hk : stmt.nesting ≤ k) :
    ∃ stmt', DerivesStmt k ts stmt' ∧ stmt'.bare = stmt.bare := by
  cases stmt with
  | block body =>
    obtain ⟨body', hbody, hbare⟩ := body.exists_derives hw hts hk
    refine ⟨_, .block hbody, ?_⟩
    rw [Stmt.bare, hbare, Stmt.bare]
  | conditional condition thenBlock elseBlock a =>
    obtain ⟨hwc, hwt, hwe⟩ := hw
    rw [Stmt.nesting, Nat.max_le, Nat.max_le] at hk
    obtain ⟨hkc, hkt, hke⟩ := hk
    obtain ⟨b, rest, rfl, hrest⟩ := of_kinds_cons hts
    obtain ⟨us, more, rfl, hus, hmore⟩ := List.map_eq_append_iff.1 hrest
    obtain ⟨vs, ws, rfl, hvs, hws⟩ := List.map_eq_append_iff.1 hmore
    obtain ⟨c, hc, hbarec⟩ := condition.exists_derives_loose hus hkc
    obtain ⟨t, ht, hbaret⟩ := thenBlock.exists_derives hwt hvs hkt
    obtain ⟨e, he, hbaree⟩ := Block.exists_derivesElse elseBlock hwe hws hke
    refine ⟨_, .conditional b hc ht he, ?_⟩
    rw [Stmt.bare, hbarec, hbaret, hbaree, Stmt.bare]
  | whileLoop condition body a =>
    obtain ⟨hwc, hwb⟩ := hw
    rw [Stmt.nesting, Nat.max_le] at hk
    obtain ⟨b, rest, rfl, hrest⟩ := of_kinds_cons hts
    obtain ⟨us, vs, rfl, hus, hvs⟩ := List.map_eq_append_iff.1 hrest
    obtain ⟨c, hc, hbarec⟩ := condition.exists_derives_loose hus hk.1
    obtain ⟨body', hbody, hbareb⟩ := body.exists_derives hwb hvs hk.2
    refine ⟨_, .whileLoop b hc hbody, ?_⟩
    rw [Stmt.bare, hbarec, hbareb, Stmt.bare]
  | loop body a =>
    obtain ⟨b, rest, rfl, hrest⟩ := of_kinds_cons hts
    obtain ⟨body', hbody, hbare⟩ := body.exists_derives hw hrest hk
    refine ⟨_, .loop b hbody, ?_⟩
    rw [Stmt.bare, hbare, Stmt.bare]
  | breakLoop a =>
    obtain ⟨b, rest, rfl, hrest⟩ := of_kinds_cons hts
    obtain ⟨c, rfl⟩ := of_kinds_singleton hrest
    exact ⟨_, .breakLoop k b c, rfl⟩
  | continueLoop a =>
    obtain ⟨b, rest, rfl, hrest⟩ := of_kinds_cons hts
    obtain ⟨c, rfl⟩ := of_kinds_singleton hrest
    exact ⟨_, .continueLoop k b c, rfl⟩
  | returnValue value a =>
    obtain ⟨b, rest, rfl, hrest⟩ := of_kinds_cons hts
    obtain ⟨us, c, rfl, hus⟩ := of_kinds_snoc hrest
    obtain ⟨value', hv, hbare⟩ := exists_derivesOptional hus hk
    refine ⟨_, .returnValue b c hv, ?_⟩
    rw [Stmt.bare, hbare, Stmt.bare]
  | binding name isMutable init a =>
    obtain ⟨hname, hconst, hi⟩ := hw
    obtain ⟨b, rest, rfl, hrest⟩ := of_kinds_cons hts
    obtain ⟨c, more, rfl, hmore⟩ := of_kinds_cons hrest
    obtain ⟨us, d, rfl, hus⟩ := of_kinds_snoc hmore
    cases isMutable with
    | true =>
      obtain ⟨init', hinit, hbare⟩ := exists_derivesInit hus hk
      refine ⟨_, .letBinding name b c d hinit, ?_⟩
      rw [Stmt.bare, hbare, Stmt.bare]
    | false =>
      obtain ⟨value, rfl⟩ := Option.isSome_iff_exists.1 (hconst rfl)
      obtain ⟨e, vs, rfl, hvs⟩ := of_kinds_cons hus
      obtain ⟨value', hv, hbare⟩ := value.exists_derives_loose hvs hk
      refine ⟨_, .constBinding name b c e d hv, ?_⟩
      rw [Stmt.bare, Option.map_some, hbare, Stmt.bare, Option.map_some]
  | function name params body a =>
    obtain ⟨hname, hparams, hwb⟩ := hw
    obtain ⟨b, rest, rfl, hrest⟩ := of_kinds_cons hts
    obtain ⟨c, inner, rfl, hinner⟩ := of_kinds_cons hrest
    obtain ⟨d, list, rfl, hlist⟩ := of_kinds_cons hinner
    obtain ⟨us, more, rfl, hus, hmore⟩ := List.map_eq_append_iff.1 hlist
    obtain ⟨e, vs, rfl, hvs⟩ := of_kinds_cons hmore
    obtain ⟨body', hbody, hbare⟩ := body.exists_derives hwb hvs hk
    refine ⟨_, .function name b c d e (derivesParams_of_kinds hus) hbody, ?_⟩
    rw [Stmt.bare, hbare, Stmt.bare]
  | expression value a =>
    obtain ⟨us, b, rfl, hus⟩ := of_kinds_snoc hts
    obtain ⟨value', hv, hbare⟩ := value.exists_derives_loose hus hk
    refine ⟨_, .expression b hv, ?_⟩
    rw [Stmt.bare, hbare, Stmt.bare]

theorem Stmt.exists_allDerives (stmts : List Stmt) {k : Nat} {ts : List Token}
    (hw : Stmt.AllWellFormed stmts) (hts : ts.map kind = Stmt.allTokens chained stmts)
    (hk : Stmt.allNesting stmts ≤ k) :
    ∃ stmts', DerivesStmts k ts stmts' ∧ Stmt.allBare stmts' = Stmt.allBare stmts := by
  cases stmts with
  | nil =>
    rw [List.map_eq_nil_iff.1 hts]
    exact ⟨[], .nil k, rfl⟩
  | cons stmt rest =>
    obtain ⟨hwst, hwr⟩ := hw
    rw [Stmt.allNesting, Nat.max_le] at hk
    obtain ⟨us, vs, rfl, hus, hvs⟩ := List.map_eq_append_iff.1 hts
    obtain ⟨stmt', hst, hbare⟩ := stmt.exists_derives hwst hus hk.1
    obtain ⟨rest', hr, hbarer⟩ := Stmt.exists_allDerives rest hwr hvs hk.2
    refine ⟨_, .cons hst hr, ?_⟩
    rw [Stmt.allBare, hbare, hbarer, Stmt.allBare]

end

end Statements

namespace Grammar

/-- A well-formed program that opens at most 128 constructs inside one another is given back by the
parser from every text that it is printed as, up to spans, and the text is read to its end. -/
theorem program_of_prints (chained : Block → Bool) (p : Program) (t : Text) (hp : p.WellFormed)
    (ht : p.Prints chained t) (hn : p.nesting ≤ 128) :
    ∃ p', program (.ofText t) ⟨0, 0⟩ = .ok ⟨t.length, 0⟩ p' ∧ p'.bare = p.bare := by
  obtain ⟨texts, htexts, rfl⟩ := ht
  have hlength : (Source.ofText (Text.join [CodeUnit.space] texts)).length =
      (Text.join [CodeUnit.space] texts).length := Source.length_eq _
  have hat : (Source.ofText (Text.join [CodeUnit.space] texts)).hasAt 0
      (Text.join [CodeUnit.space] texts) := by
    rw [Source.hasAt_iff]
    exact List.prefix_rfl
  obtain ⟨ts, hts, hl⟩ := Source.lexedAfter_of_texts htexts (p.tokens_lexical chained hp) hat
    (by rw [hlength, Nat.zero_add])
  obtain ⟨stmts, hs, hbare⟩ := Stmt.exists_allDerives p.statements hp hts hn
  have hok := program_accepts (c := ⟨0, 0⟩) (Nat.zero_le _) hl (.refl _) hs
  rw [hlength] at hok
  refine ⟨_, hok, ?_⟩
  rw [Program.bare, hbare, Program.bare]

theorem program_of_prints_else_if :
    ∃ p', program (.ofText "if x \x7b \x7d else if y \x7b x = - ( y + 1.5 ) ; \x7d") ⟨0, 0⟩ =
        .ok ⟨42, 0⟩ p' ∧
      p'.bare = Program.bare ⟨[.conditional (.name ⟨"x", default⟩) (.mk [] default)
        (some (.mk [.conditional (.name ⟨"y", default⟩) (.mk [.expression
          (.assign ⟨"x", default⟩ (.unary .neg (.binary .add (.name ⟨"y", default⟩)
            (.number (.ofNumeral "1.5") default) default) default) default) default] default)
          none default] default)) default], default⟩ := by
  have hwords : IsName "x" ∧ IsName "y" := by decide
  have hnumeral : IsNumeral "1.5" :=
    .decimal (t := "1") (u := "5") ⟨by decide, List.forall_mem_singleton.2 rfl⟩
      ⟨by decide, List.forall_mem_singleton.2 rfl⟩
  have hwrites : (TokenKind.number (.ofNumeral "1.5")).Writes "1.5" :=
    ⟨hnumeral, rfl, by decide +kernel⟩
  refine program_of_prints (fun _ => true) _
    "if x \x7b \x7d else if y \x7b x = - ( y + 1.5 ) ; \x7d" ?_
    ⟨["if", "x", "\x7b", "\x7d", "else", "if", "y", "\x7b", "x", "=", "-", "(", "y", "+", "1.5",
      ")", ";", "\x7d"], ?_, ?_⟩ ?_
  · exact ⟨⟨hwords.1, trivial, ⟨hwords.2, ⟨⟨hwords.1, hwords.2, trivial⟩, trivial⟩, trivial⟩,
      trivial⟩, trivial⟩
  · refine .cons rfl <| .cons rfl <| .cons rfl <| .cons rfl <| .cons rfl <| .cons rfl <|
      .cons rfl <| .cons rfl <| .cons rfl <| .cons rfl <| .cons rfl <| .cons rfl <| .cons rfl <|
      .cons rfl <| .cons hwrites <| .cons rfl <| .cons rfl <| .cons rfl .nil
  · decide
  · decide

end Grammar

end BrookSyntax
