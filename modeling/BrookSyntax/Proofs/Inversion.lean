import BrookSyntax.Proofs.Reads
import BrookSyntax.Proofs.Starts

namespace BrookSyntax

variable {k n : Nat} {ts us : List Token} {e : Expr}

theorem Repeated.snoc {α : Type} {R : List Token → α → Prop} {a : α} {as : List α}
    (hs : Repeated R ts as) (h : R us a) : Repeated R (ts ++ us) (as ++ [a]) := by
  induction hs with
  | nil =>
    have hone := Repeated.cons h .nil
    rwa [List.append_nil] at hone
  | cons hr hs ih =>
    rw [List.append_assoc]
    exact .cons hr ih

/-- The arguments of one of the calls of an expression, with the place where they end. -/
def DerivesCall (k : Nat) (ts : List Token) (call : List Expr × Position) : Prop :=
  ∃ k' a us b, k = k' + 1 ∧ ts = .mark "(" a :: (us ++ [.mark ")" b]) ∧
    DerivesArgs k' us call.1 ∧ call.2 = b.stop

/-- An operator of a level and its right operand, as tokens. -/
def DerivesOperation (k n : Nat) (ts : List Token) (next : BinaryOp × Expr) : Prop :=
  ∃ a us, Token.mark next.1.symbol a :: us = ts ∧ next.1.precedence = n ∧
    DerivesExpr k (n + 1) us next.2

theorem DerivesCall.foldl {callee : Expr} {calls : List (List Expr × Position)}
    (hs : Repeated (DerivesCall k) us calls) (h : DerivesExpr k 9 ts callee) :
    DerivesExpr k 9 (ts ++ us) (calls.foldl Grammar.applyCall callee) := by
  induction hs generalizing ts callee with
  | nil => rwa [List.append_nil]
  | @cons vs ws call calls hr hs ih =>
    obtain ⟨args, stop⟩ := call
    obtain ⟨k, a, us, b, rfl, rfl, ha, rfl⟩ := hr
    have hnext := ih (.call a b h ha)
    rwa [List.append_assoc] at hnext

theorem DerivesOperation.foldl {left : Expr} {rest : List (BinaryOp × Expr)}
    (hs : Repeated (DerivesOperation k n) us rest) (h : DerivesExpr k n ts left) :
    DerivesExpr k n (ts ++ us) (rest.foldl Grammar.applyBinary left) := by
  induction hs generalizing ts left with
  | nil => rwa [List.append_nil]
  | @cons vs ws next rest hr hs ih =>
    obtain ⟨op, right⟩ := next
    obtain ⟨a, us, rfl, hm, hr⟩ := hr
    have hnext := ih (.binary a hm h hr)
    rwa [List.append_assoc] at hnext

theorem BinaryOp.precedence_bounds (op : BinaryOp) : 2 ≤ op.precedence ∧ op.precedence ≤ 7 := by
  cases op <;> decide

namespace DerivesExpr

theorem calls (h : DerivesExpr k 9 ts e) :
    ∃ us vs head calls, us ++ vs = ts ∧ DerivesExpr k 10 us head ∧
      Repeated (DerivesCall k) vs calls ∧ calls.foldl Grammar.applyCall head = e := by
  generalize hn : 9 = n at h
  induction h using DerivesExpr.rec (motive_2 := fun _ _ _ _ => True)
    (motive_3 := fun _ _ _ _ => True) with
  | @call k ts ws callee args a b hc ha ih =>
    obtain ⟨us, vs, head, calls, rfl, hhead, hs, rfl⟩ := ih hn
    have hcall : DerivesCall (k + 1) (.mark "(" a :: (ws ++ [.mark ")" b])) (args, b.stop) :=
      ⟨k, a, ws, b, rfl, rfl, ha, rfl⟩
    refine ⟨us, _, head, _, (List.append_assoc _ _ _).symm, hhead, hs.snoc hcall, ?_⟩
    rw [List.foldl_append]
    rfl
  | @tighter k n ts e hpos h ih =>
    cases hn
    exact ⟨ts, [], e, [], List.append_nil ts, h, .nil, rfl⟩
  | @binary k n ts us left right op a hop hl hr =>
    have := op.precedence_bounds
    omega
  | single | cons | none | some => trivial
  | _ => cases hn

/-- An expression of a level of operators is an operand and the operations that follow it. -/
theorem operations (h : DerivesExpr k n ts e) (h2 : 2 ≤ n) (h7 : n ≤ 7) :
    ∃ us vs head rest, us ++ vs = ts ∧ DerivesExpr k (n + 1) us head ∧
      Repeated (DerivesOperation k n) vs rest ∧ rest.foldl Grammar.applyBinary head = e := by
  induction h using DerivesExpr.rec (motive_2 := fun _ _ _ _ => True)
    (motive_3 := fun _ _ _ _ => True) with
  | @binary k n ts ws left right op a hop hl hr ihl _ =>
    obtain ⟨us, vs, head, rest, rfl, hhead, hs, rfl⟩ := ihl h2 h7
    have hnext : DerivesOperation k n (.mark op.symbol a :: ws) (op, right) :=
      ⟨a, ws, rfl, hop, hr⟩
    refine ⟨us, _, head, _, (List.append_assoc _ _ _).symm, hhead, hs.snoc hnext, ?_⟩
    rw [List.foldl_append]
    rfl
  | @tighter k n ts e hpos h ih => exact ⟨ts, [], e, [], List.append_nil ts, h, .nil, rfl⟩
  | single | cons | none | some => trivial
  | _ => omega

theorem ne_nil (h : DerivesExpr k n ts e) : ts ≠ [] := by
  obtain ⟨t, rest, rfl, -⟩ := h.starts
  exact List.cons_ne_nil _ _

/-- A name at the start of an expression that is no assignment is not followed by its sign. -/
theorem second (h : DerivesExpr k n ts e) (h2 : 2 ≤ n) {t u : Token} {rest : List Token}
    (hts : ts = t :: u :: rest) {word : Text} (ht : t.kind = .name word) :
    u.kind ≠ .mark "=" := by
  -- What follows an expression as the left part of another one is neither a name nor the sign.
  have left {ts vs : List Token} {v : Token} (hne : ts ≠ []) (hv : v.kind ≠ .mark "=")
      (ih : ∀ {t u : Token} {rest : List Token}, ts = t :: u :: rest → t.kind = .name word →
        u.kind ≠ .mark "=") {t u : Token} {rest : List Token}
      (hts : ts ++ v :: vs = t :: u :: rest) (ht : t.kind = .name word) : u.kind ≠ .mark "=" := by
    cases ts with
    | nil => exact absurd rfl hne
    | cons t' ts =>
      cases ts with
      | nil =>
        cases hts
        exact hv
      | cons u' ts =>
        cases hts
        exact ih rfl ht
  induction h using DerivesExpr.rec (motive_2 := fun _ _ _ _ => True)
      (motive_3 := fun _ _ _ _ => True) generalizing t u rest with
  | number k value a => cases hts
  | string k value a => cases hts
  | true k a => cases hts
  | false k a => cases hts
  | null k a => cases hts
  | name k word a => cases hts
  | group a b h ih =>
    obtain ⟨rfl, -⟩ := List.cons.inj hts
    cases ht
  | call a b hc ha ih _ =>
    apply left hc.ne_nil _ (ih (by decide)) hts ht
    intro heq
    cases heq
  | unary op a h ih =>
    cases hts
    cases ht
  | @binary k n ts us lhs rhs op a hop hl hr ihl ihr =>
    apply left hl.ne_nil _ (ihl h2) hts ht
    intro heq
    cases op <;> cases heq
  | assign word a b h ih => omega
  | tighter hn h ih => exact ih (by omega) hts ht
  | single | cons | none | some => trivial

end DerivesExpr

/-- A token of the kind may be the first one of a statement. -/
def TokenKind.StartsStmt : TokenKind → Prop
  | keyword word => word ≠ "else"
  | mark text => text = "\x7b" ∨ text = "(" ∨ text = "!" ∨ text = "-"
  | name _ | number _ | string _ => True

theorem TokenKind.StartsExpr.stmt {kind : TokenKind} (h : kind.StartsExpr n) : kind.StartsStmt := by
  cases kind with
  | keyword word =>
    intro heq
    rcases h with rfl | rfl | rfl <;> exact absurd heq (by decide)
  | mark text =>
    rcases h with h | ⟨-, h⟩
    · exact .inr (.inl h)
    · exact .inr (.inr h)
  | name word => trivial
  | number value => trivial
  | string value => trivial

theorem DerivesStmt.starts {stmt : Stmt} (h : DerivesStmt k ts stmt) :
    ∃ t rest, ts = t :: rest ∧ t.kind.StartsStmt := by
  have keyword {w : Text} (hw : w ≠ "else") (a : Span) (us : List Token) :
      ∃ t rest, Token.keyword w a :: us = t :: rest ∧ t.kind.StartsStmt := ⟨_, _, rfl, hw⟩
  cases h with
  | block hb =>
    cases hb
    exact ⟨_, _, rfl, .inl rfl⟩
  | expression a he =>
    obtain ⟨t, rest, rfl, ht⟩ := he.starts
    exact ⟨t, _, rfl, ht.stmt⟩
  | conditional | whileLoop | loop | breakLoop | continueLoop | returnValue | letBinding |
    constBinding | function => exact keyword (by decide) _ _

end BrookSyntax
