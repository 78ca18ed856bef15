import Mathlib.Computability.Language
import Mathlib.Order.CompletePartialOrder
import BrookSyntax.Proofs.Nodes
import BrookSyntax.Proofs.Truncation

namespace BrookSyntax

open scoped Computability

section Room

variable {k l n : Nat} {ts us : List Token}

theorem DerivesExpr.mono {e : Expr} (h : DerivesExpr k n ts e) (hkl : k ≤ l) :
    DerivesExpr l n ts e := Nat.le_induction h (fun _ _ ih => ih.succ) l hkl

theorem DerivesBlock.mono {body : Block} (h : DerivesBlock k ts body) (hkl : k ≤ l) :
    DerivesBlock l ts body := Nat.le_induction h (fun _ _ ih => ih.succ) l hkl

theorem DerivesElse.mono {body : Option Block} (h : DerivesElse k ts body) (hkl : k ≤ l) :
    DerivesElse l ts body := Nat.le_induction h (fun _ _ ih => ih.succ) l hkl

theorem DerivesStmt.mono {stmt : Stmt} (h : DerivesStmt k ts stmt) (hkl : k ≤ l) :
    DerivesStmt l ts stmt := Nat.le_induction h (fun _ _ ih => ih.succ) l hkl

theorem DerivesStmts.mono {stmts : List Stmt} (h : DerivesStmts k ts stmts) (hkl : k ≤ l) :
    DerivesStmts l ts stmts := Nat.le_induction h (fun _ _ ih => ih.succ) l hkl

theorem DerivesItems.mono {es : List Expr} (h : DerivesItems k ts es) (hkl : k ≤ l) :
    DerivesItems l ts es := by
  induction h using DerivesItems.rec (motive_1 := fun _ _ _ _ _ => True)
    (motive_3 := fun _ _ _ _ => True) with
  | single h => exact .single (h.mono hkl)
  | cons a h hs _ ih => exact .cons a (h.mono hkl) (ih hkl)
  | _ => trivial

theorem DerivesItems.snoc {es : List Expr} {e : Expr} (h : DerivesItems k ts es) (a : Span)
    (he : DerivesExpr k 1 us e) : DerivesItems k (ts ++ .mark "," a :: us) (es ++ [e]) := by
  induction h using DerivesItems.rec (motive_1 := fun _ _ _ _ _ => True)
    (motive_3 := fun _ _ _ _ => True) with
  | single h => exact .cons a h (.single he)
  | cons b h hs _ ih =>
    rw [List.append_assoc]
    exact .cons b h (ih he)
  | _ => trivial

theorem DerivesNames.snoc {words : List Text} (h : DerivesNames ts words) (a : Span) (word : Text)
    (b : Span) : DerivesNames (ts ++ [.mark "," a, .name word b]) (words ++ [word]) := by
  induction h with
  | single word' c => exact .cons word' c a (.single word b)
  | cons word' c d h ih => exact .cons word' c d ih

end Room

namespace Phrases

/-- Tokens of some kinds, wherever they stand, make tokens before them a phrase of a language. -/
def Completes (L : Language Token) (ts : List Token) (kinds : List TokenKind) : Prop :=
  ∀ us : List Token, us.map Token.kind = kinds → ts ++ us ∈ L

/-- Some phrase of the language can be written, wherever its tokens stand. -/
def Writable (L : Language Token) : Prop :=
  ∃ kinds, (∀ kind ∈ kinds, kind.Plain) ∧ Completes L [] kinds

variable {L M : Language Token} {ts us : List Token} {kinds kinds' : List TokenKind} {n : Nat}

theorem Completes.mono (h : Completes L ts kinds) (hLM : L ≤ M) : Completes M ts kinds :=
  fun us hus => hLM (h us hus)

theorem Completes.append (h : Completes L ts kinds) (h' : Completes M [] kinds') :
    Completes (L * M) ts (kinds ++ kinds') := by
  intro us hus
  obtain ⟨vs, ws, rfl, hvs, hws⟩ := List.map_eq_append_iff.1 hus
  rw [← List.append_assoc]
  exact Language.append_mem_mul (h vs hvs) (h' ws hws)

theorem Completes.after (hts : ts ∈ L) (h : Completes M us kinds) :
    Completes (L * M) (ts ++ us) kinds := by
  intro vs hvs
  rw [List.append_assoc]
  exact Language.append_mem_mul hts (h vs hvs)

theorem Writable.mono (h : Writable L) (hLM : L ≤ M) : Writable M := by
  obtain ⟨kinds, hk, hL⟩ := h
  exact ⟨kinds, hk, hL.mono hLM⟩

theorem Writable.mul (h : Writable L) (h' : Writable M) : Writable (L * M) := by
  obtain ⟨kinds, hk, hL⟩ := h
  obtain ⟨kinds', hk', hM⟩ := h'
  exact ⟨kinds ++ kinds', List.forall_mem_append.2 ⟨hk, hk'⟩, hL.append hM⟩

theorem Writable.one : Writable 1 := by
  refine ⟨[], nofun, fun us hus => ?_⟩
  rw [List.map_eq_nil_iff.1 hus]
  exact Language.nil_mem_one

theorem Writable.kstar (L : Language Token) : Writable L∗ := Writable.one.mono one_le_kstar

theorem Writable.option (L : Language Token) : Writable (1 + L) := Writable.one.mono le_self_add

/-- A token of a kind. -/
def token (kind : TokenKind) : Language Token := {ts | ∃ a, ts = [⟨kind, a⟩]}

abbrev mark (text : Text) : Language Token := token (.mark text)

abbrev keyword (word : Text) : Language Token := token (.keyword word)

def name : Language Token := {ts | ∃ word a, ts = [.name word a]}

def expr (n : Nat) : Language Token := {ts | ∃ k e, DerivesExpr k n ts e}

/-- Expressions with commas between neighbours, at least one. -/
def items : Language Token := {ts | ∃ k es, DerivesItems k ts es}

def args : Language Token := {ts | ∃ k es, DerivesArgs k ts es}

/-- Names with commas between neighbours, at least one. -/
def names : Language Token := {ts | ∃ words, DerivesNames ts words}

def params : Language Token := {ts | ∃ words, DerivesParams ts words}

def init : Language Token := {ts | ∃ k value, DerivesInit k ts value}

/-- An expression or nothing. -/
def optional : Language Token := {ts | ∃ k value, DerivesOptional k ts value}

def block : Language Token := {ts | ∃ k body, DerivesBlock k ts body}

/-- What follows the first block of a conditional. -/
def elseBranch : Language Token := {ts | ∃ k body, DerivesElse k ts body}

def stmt : Language Token := {ts | ∃ k stmt, DerivesStmt k ts stmt}

def conditional : Language Token :=
  {ts | ∃ k condition thenBlock elseBlock a,
    DerivesStmt k ts (.conditional condition thenBlock elseBlock a)}

/-- Statements one after the other. -/
def stmts : Language Token := {ts | ∃ k stmts, DerivesStmts k ts stmts}

/-- An operator of a level. -/
def operator (n : Nat) : Language Token :=
  {ts | ∃ (op : BinaryOp) (a : Span), op.precedence = n ∧ ts = [.mark op.symbol a]}

/-- An operator with one operand. -/
def sign : Language Token := {ts | ∃ (op : UnaryOp) (a : Span), ts = [.mark op.symbol a]}

section Nonempty

theorem nil_notMem_token (kind : TokenKind) : [] ∉ token kind := by
  rintro ⟨a, h⟩
  cases h

theorem nil_notMem_name : [] ∉ name := by
  rintro ⟨word, a, h⟩
  cases h

theorem nil_notMem_mul (h : [] ∉ L) (M : Language Token) : [] ∉ L * M := by
  rintro ⟨ts, hts, us, hus, hnil⟩
  obtain ⟨rfl, -⟩ := List.append_eq_nil_iff.1 hnil
  exact h hts

theorem nil_notMem_expr (n : Nat) : [] ∉ expr n := by
  rintro ⟨k, e, h⟩
  exact h.ne_nil rfl

theorem nil_notMem_block : [] ∉ block := by
  rintro ⟨k, body, h⟩
  exact h.ne_nil rfl

theorem nil_notMem_stmt : [] ∉ stmt := by
  rintro ⟨k, st, h⟩
  exact h.ne_nil rfl

end Nonempty

section Expressions

theorem group_le : mark "(" * (expr 1 * mark ")") ≤ expr 10 := by
  rintro _ ⟨_, ⟨a, rfl⟩, _, ⟨ts, ⟨k, e, h⟩, _, ⟨b, rfl⟩, rfl⟩, rfl⟩
  exact ⟨k + 1, e, .group a b h⟩

theorem call_le : expr 9 * (mark "(" * (args * mark ")")) ≤ expr 9 := by
  rintro _ ⟨ts, ⟨k, callee, hc⟩, _, ⟨_, ⟨a, rfl⟩, _, ⟨us, ⟨l, es, ha⟩, _, ⟨b, rfl⟩, rfl⟩, rfl⟩, rfl⟩
  have ha' : DerivesArgs (k + l) us es := by
    cases ha with
    | none => exact .none _
    | some hs => exact .some (hs.mono (by omega))
  exact ⟨k + l + 1, _, .call a b (hc.mono (by omega)) ha'⟩

theorem unary_le : sign * expr 8 ≤ expr 8 := by
  rintro _ ⟨_, ⟨op, a, rfl⟩, ts, ⟨k, e, h⟩, rfl⟩
  exact ⟨k + 1, _, .unary op a h⟩

theorem binary_le : expr n * (operator n * expr (n + 1)) ≤ expr n := by
  rintro _ ⟨ts, ⟨k, left, hl⟩, _, ⟨_, ⟨op, a, hop, rfl⟩, us, ⟨l, right, hr⟩, rfl⟩, rfl⟩
  exact ⟨k + l, _, .binary a hop (hl.mono (by omega)) (hr.mono (by omega))⟩

theorem assign_le : name * (mark "=" * expr 1) ≤ expr 1 := by
  rintro _ ⟨_, ⟨word, a, rfl⟩, _, ⟨_, ⟨b, rfl⟩, ts, ⟨k, e, h⟩, rfl⟩, rfl⟩
  exact ⟨k + 1, _, .assign word a b h⟩

theorem name_le : name ≤ expr 10 := by
  rintro _ ⟨word, a, rfl⟩
  exact ⟨0, _, .name 0 word a⟩

theorem expr_le {m : Nat} (hm : 1 ≤ m) (hmn : m ≤ n) : expr n ≤ expr m := by
  rintro ts ⟨k, e, h⟩
  exact ⟨k, e, h.loosen hm hmn⟩

theorem args_le : 1 + expr 1 * (mark "," * expr 1)∗ ≤ args := by
  have hitems : items * (mark "," * expr 1) ≤ items := by
    rintro _ ⟨ts, ⟨k, es, hs⟩, _, ⟨_, ⟨a, rfl⟩, us, ⟨l, e, h⟩, rfl⟩, rfl⟩
    exact ⟨k + l, _, (hs.mono (by omega)).snoc a (h.mono (by omega))⟩
  have hfirst : expr 1 ≤ items := by
    rintro ts ⟨k, e, h⟩
    exact ⟨k, [e], .single h⟩
  rintro ts (rfl | hts)
  · exact ⟨0, [], .none 0⟩
  · obtain ⟨k, es, h⟩ := mul_kstar_le hfirst hitems hts
    exact ⟨k, es, .some h⟩

end Expressions

section Statements

theorem params_le : 1 + name * (mark "," * name)∗ ≤ params := by
  have hnames : names * (mark "," * name) ≤ names := by
    rintro _ ⟨ts, ⟨words, hs⟩, _, ⟨_, ⟨a, rfl⟩, _, ⟨word, b, rfl⟩, rfl⟩, rfl⟩
    exact ⟨_, hs.snoc a word b⟩
  have hfirst : name ≤ names := by
    rintro _ ⟨word, a, rfl⟩
    exact ⟨[word], .single word a⟩
  rintro ts (rfl | hts)
  · exact ⟨[], .none⟩
  · obtain ⟨words, h⟩ := mul_kstar_le hfirst hnames hts
    exact ⟨words, .some h⟩

theorem init_le : 1 + mark "=" * expr 1 ≤ init := by
  rintro _ (rfl | ⟨_, ⟨a, rfl⟩, ts, ⟨k, e, h⟩, rfl⟩)
  · exact ⟨0, none, .none 0⟩
  · exact ⟨k, some e, .some a h⟩

theorem optional_le : 1 + expr 1 ≤ optional := by
  rintro _ (rfl | ⟨k, e, h⟩)
  · exact ⟨0, none, .none 0⟩
  · exact ⟨k, some e, .some h⟩

theorem stmts_le : stmt∗ ≤ stmts := by
  refine kstar_le_of_mul_le_right ?_ ?_
  · rintro _ rfl
    exact ⟨0, [], .nil 0⟩
  · rintro _ ⟨ts, ⟨k, st, h⟩, us, ⟨l, rest, hs⟩, rfl⟩
    exact ⟨k + l, _, .cons (h.mono (by omega)) (hs.mono (by omega))⟩

theorem block_le : mark "\x7b" * (stmt∗ * mark "\x7d") ≤ block := by
  rintro _ ⟨_, ⟨a, rfl⟩, _, ⟨ts, hts, _, ⟨b, rfl⟩, rfl⟩, rfl⟩
  obtain ⟨k, body, h⟩ := stmts_le hts
  exact ⟨k + 1, _, .mk a b h⟩

theorem else_le : 1 + keyword "else" * (block + conditional) ≤ elseBranch := by
  rintro _ (rfl | ⟨_, ⟨a, rfl⟩, ts, ⟨k, body, h⟩ | ⟨k, condition, thenBlock, elseBlock, b, h⟩, rfl⟩)
  · exact ⟨0, none, .none 0⟩
  · exact ⟨k, some body, .block a h⟩
  · exact ⟨k + 1, _, .chained a h⟩

theorem conditional_le :
    keyword "if" * (expr 1 * (block * elseBranch)) ≤ conditional := by
  rintro _ ⟨_, ⟨a, rfl⟩, _, ⟨ts, ⟨k, condition, hc⟩, _, ⟨us, ⟨l, thenBlock, ht⟩, vs,
    ⟨m, elseBlock, he⟩, rfl⟩, rfl⟩, rfl⟩
  have h := DerivesStmt.conditional (k := k + l + m) a (hc.mono (by omega)) (ht.mono (by omega))
    (he.mono (by omega))
  exact ⟨_, condition, thenBlock, elseBlock, _, h⟩

theorem conditional_le_stmt : conditional ≤ stmt := by
  rintro ts ⟨k, condition, thenBlock, elseBlock, a, h⟩
  exact ⟨k, _, h⟩

theorem block_le_stmt : block ≤ stmt := by
  rintro ts ⟨k, body, h⟩
  exact ⟨k, _, .block h⟩

theorem while_le : keyword "while" * (expr 1 * block) ≤ stmt := by
  rintro _ ⟨_, ⟨a, rfl⟩, _, ⟨ts, ⟨k, condition, hc⟩, us, ⟨l, body, hb⟩, rfl⟩, rfl⟩
  have h := DerivesStmt.whileLoop (k := k + l) a (hc.mono (by omega)) (hb.mono (by omega))
  exact ⟨_, _, h⟩

theorem loop_le : keyword "loop" * block ≤ stmt := by
  rintro _ ⟨_, ⟨a, rfl⟩, ts, ⟨k, body, h⟩, rfl⟩
  exact ⟨k, _, .loop a h⟩

theorem break_le : keyword "break" * mark ";" ≤ stmt := by
  rintro _ ⟨_, ⟨a, rfl⟩, _, ⟨b, rfl⟩, rfl⟩
  exact ⟨0, _, .breakLoop 0 a b⟩

theorem continue_le : keyword "continue" * mark ";" ≤ stmt := by
  rintro _ ⟨_, ⟨a, rfl⟩, _, ⟨b, rfl⟩, rfl⟩
  exact ⟨0, _, .continueLoop 0 a b⟩

theorem return_le : keyword "return" * (optional * mark ";") ≤ stmt := by
  rintro _ ⟨_, ⟨a, rfl⟩, _, ⟨ts, ⟨k, value, h⟩, _, ⟨b, rfl⟩, rfl⟩, rfl⟩
  exact ⟨k, _, .returnValue a b h⟩

theorem let_le : keyword "let" * (name * (init * mark ";")) ≤ stmt := by
  rintro _ ⟨_, ⟨a, rfl⟩, _, ⟨_, ⟨word, b, rfl⟩, _, ⟨ts, ⟨k, value, h⟩, _, ⟨c, rfl⟩, rfl⟩, rfl⟩, rfl⟩
  exact ⟨k, _, .letBinding word a b c h⟩

theorem const_le : keyword "const" * (name * (mark "=" * (expr 1 * mark ";"))) ≤ stmt := by
  rintro _ ⟨_, ⟨a, rfl⟩, _, ⟨_, ⟨word, b, rfl⟩, _, ⟨_, ⟨c, rfl⟩, _, ⟨ts, ⟨k, e, h⟩, _, ⟨d, rfl⟩,
    rfl⟩, rfl⟩, rfl⟩, rfl⟩
  exact ⟨k, _, .constBinding word a b c d h⟩

theorem function_le :
    keyword "fn" * (name * (mark "(" * (params * (mark ")" * block)))) ≤ stmt := by
  rintro _ ⟨_, ⟨a, rfl⟩, _, ⟨_, ⟨word, b, rfl⟩, _, ⟨_, ⟨c, rfl⟩, _, ⟨ts, ⟨words, hp⟩, _,
    ⟨_, ⟨d, rfl⟩, us, ⟨k, body, hb⟩, rfl⟩, rfl⟩, rfl⟩, rfl⟩, rfl⟩
  exact ⟨k, _, .function word a b c d hp hb⟩

theorem expression_le : expr 1 * mark ";" ≤ stmt := by
  rintro _ ⟨ts, ⟨k, e, h⟩, _, ⟨a, rfl⟩, rfl⟩
  exact ⟨k, _, .expression a h⟩

end Statements

section Writable

theorem completes_token (kind : TokenKind) : Completes (token kind) [] [kind] := by
  intro us hus
  obtain ⟨t, ts, rfl, rfl, hts⟩ := List.map_eq_cons_iff.1 hus
  rw [List.map_eq_nil_iff.1 hts]
  exact ⟨t.span, rfl⟩

theorem token_writable {kind : TokenKind} (h : kind.Plain) : Writable (token kind) :=
  ⟨[kind], List.forall_mem_singleton.2 h, completes_token kind⟩

theorem mark_writable {text : Text} (h : text ∈ marks) : Writable (mark text) :=
  token_writable ⟨h, text, rfl⟩

theorem keyword_writable {word : Text} (h : word ∈ keywords) : Writable (keyword word) :=
  token_writable ⟨h, word, rfl⟩

theorem name_writable : Writable name := by
  have hplain : (TokenKind.name "x").Plain := ⟨by decide, "x", rfl⟩
  apply (token_writable hplain).mono
  rintro _ ⟨a, rfl⟩
  exact ⟨"x", a, rfl⟩

theorem expr_writable (h1 : 1 ≤ n) (h10 : n ≤ 10) : Writable (expr n) :=
  (name_writable.mono name_le).mono (expr_le h1 h10)

theorem block_writable : Writable block :=
  ((mark_writable (by decide)).mul ((Writable.kstar stmt).mul (mark_writable (by decide)))).mono
    block_le

theorem elseBranch_writable : Writable elseBranch := (Writable.option _).mono else_le

theorem conditional_writable : Writable conditional :=
  ((keyword_writable (by decide)).mul ((expr_writable (by decide) (by decide)).mul
    (block_writable.mul elseBranch_writable))).mono conditional_le

theorem stmt_writable : Writable stmt := block_writable.mono block_le_stmt

theorem sign_writable : Writable sign := by
  apply (mark_writable UnaryOp.neg.symbol_mem).mono
  rintro _ ⟨a, rfl⟩
  exact ⟨.neg, a, rfl⟩

theorem operator_writable (op : BinaryOp) : Writable (operator op.precedence) := by
  apply (mark_writable op.symbol_mem).mono
  rintro _ ⟨a, rfl⟩
  exact ⟨op, a, rfl, rfl⟩

end Writable

end Phrases

end BrookSyntax
