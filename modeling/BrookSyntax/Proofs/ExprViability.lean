import BrookSyntax.Proofs.Viability

namespace BrookSyntax

open BrookSyntax.Parser Phrases Source
open scoped Computability

namespace Grammar

section Literals

theorem numeral_failsHere : numeral.FailsHere := by
  have hfraction := ((NeverCommits.literal ".").seqRight
    (NeverCommits.satisfy CodeUnit.isDigit "digit")).seqRight (.takeWhile CodeUnit.isDigit)
  have hdigits := (FailsHere.satisfy CodeUnit.isDigit "number").seqRight
    (q := takeWhile CodeUnit.isDigit) nofun
  intro s c f hf
  obtain hf | ⟨d, t, -, hf⟩ := seqRight_eq_failed.1 (consumed_eq_failed.1 hf)
  · exact hdigits hf
  · obtain ⟨hf, hcom⟩ := optional_eq_failed.1 hf
    rw [hfraction hf] at hcom
    cases hcom

theorem number_failsHere : number.FailsHere := by
  intro s c f hf
  rw [number] at hf
  split at hf
  · next g hg =>
    cases hf
    exact numeral_failsHere hg
  · dsimp only at hf
    split at hf
    · cases hf
    · cases hf
      rfl

theorem identifier_failsHere : identifier.FailsHere := by
  have hword := (FailsHere.satisfy CodeUnit.isWordStart "identifier").seqRight
    (q := takeWhile CodeUnit.isWordPart) nofun
  intro s c f hf
  rw [identifier] at hf
  split at hf
  · split at hf
    · cases hf
      rfl
    · cases hf
  · next g hg =>
    cases hf
    exact hword (consumed_eq_failed.1 hg)

theorem number_follows : number.Follows (expr 10) := by
  apply number_failsHere.follows (expr_writable (by decide) (by decide))
  intro n
  exact number_reads.after.imp fun ts e h => ⟨n, e, h⟩

theorem string_follows : string.Follows (expr 10) where
  writable := expr_writable (by decide) (by decide)
  reads n := string_reads.after.imp fun ts e h => ⟨n, e, h⟩
  viable s c f hc hf := by
    rw [string] at hf
    split at hf
    · next hq =>
      have hlt := lt_length_of_unit? hq
      split at hf
      · cases hf
      · next g hg =>
        cases hf
        obtain ⟨a, b, v, hat, hlen, hle, hv, -⟩ := stringFrom_eq_error hlt (by omega) hg
        have hviable : s.Viable (token (.string v)) c.offset f.offset :=
          .string (hasAt_cons.2 ⟨hq, hat⟩) (by rw [← hlen, List.length_cons]; omega) hle hv
        apply hviable.mono
        rintro _ ⟨a, rfl⟩
        exact ⟨0, _, .string 0 v a⟩
    · cases hf
      exact .here hc (expr_writable (by decide) (by decide))

theorem constant_follows : constant.Follows (expr 10) := by
  apply Follows.choice (expr_writable (by decide) (by decide))
  simp only [List.forall_mem_cons, List.not_mem_nil, false_implies, implies_true, and_true]
  refine ⟨?_, ?_, ?_⟩
  · apply ((Follows.keyword (by decide)).mapSpan _).mono
    rintro _ ⟨a, rfl⟩
    exact ⟨0, _, .true 0 a⟩
  · apply ((Follows.keyword (by decide)).mapSpan _).mono
    rintro _ ⟨a, rfl⟩
    exact ⟨0, _, .false 0 a⟩
  · apply ((Follows.keyword (by decide)).mapSpan _).mono
    rintro _ ⟨a, rfl⟩
    exact ⟨0, _, .null 0 a⟩

theorem identifier_follows : identifier.Follows Phrases.name := by
  apply identifier_failsHere.follows name_writable
  intro n
  exact Reads.identifier.after.imp fun ts word h => ⟨word, h⟩

theorem name_follows : Grammar.name.Follows Phrases.name := identifier_follows.mapSpan _

end Literals

section Expressions

variable {inner : InnerExpr}

/-- The rules that expressions use further in follow expressions. -/
structure InnerExpr.Follows (inner : InnerExpr) : Prop where
  assignment : inner.assignment.Follows (expr 1)
  unary : inner.unary.Follows (expr 8)

theorem parenthesized_follows (h : inner.Follows) : (parenthesized inner).Follows (expr 10) := by
  have hbody := (h.assignment.closed (m := ")") (by decide)).deeper.committed
  exact ((Follows.literal (m := "(") (by decide)).seqRight hbody).mono group_le

theorem primary_follows (h : inner.Follows) : (primary inner).Follows (expr 10) := by
  apply Follows.choice (expr_writable (by decide) (by decide))
  simp only [List.forall_mem_cons, List.not_mem_nil, false_implies, implies_true, and_true]
  exact ⟨number_follows, string_follows, constant_follows, (name_follows.map _).mono name_le,
    parenthesized_follows h⟩

theorem arguments_follows (h : inner.Follows) :
    (arguments inner).Follows (mark "(" * (args * mark ")")) := by
  have hargs := (h.assignment.sepBy (nil_notMem_expr 1)).mono args_le
  have hbody := (hargs.closed (m := ")") (by decide)).deeper.committed
  exact (Follows.literal (m := "(") (by decide)).seqRight hbody

theorem called_follows (h : inner.Follows) : (called inner).Follows (expr 9) := by
  have hcall := ((arguments_follows h).spaced (nil_notMem_mul (nil_notMem_token _) _)).mapSpan
    fun args span => (args, span.stop)
  have hrule := (primary_follows h).bind fun head => hcall.many.bind fun calls =>
    Follows.pure (calls.foldl applyCall head)
  rw [mul_one] at hrule
  exact hrule.mono (mul_kstar_le (expr_le (by decide) (by decide)) call_le)

theorem unaryOp_failsHere : unaryOp.FailsHere := by
  apply FailsHere.choice
  rw [List.forall_mem_map]
  exact fun op _ => (FailsHere.literal op.symbol).map _

theorem binaryOp_failsHere (ops : List BinaryOp) : (binaryOp ops).FailsHere := by
  apply FailsHere.choice
  rw [List.forall_mem_map]
  exact fun op _ => (FailsHere.literal op.symbol).map _

theorem unary_follows (h : inner.Follows) : (unary inner).Follows (expr 8) := by
  apply Follows.describedAs
  apply Follows.choice (expr_writable (by decide) (by decide))
  simp only [List.forall_mem_cons, List.not_mem_nil, false_implies, implies_true, and_true]
  refine ⟨?_, (called_follows h).mono (expr_le (by decide) (by decide))⟩
  have hoperand (op : UnaryOp) := (h.unary.deeper.spaced (nil_notMem_expr 8)).committed.bind
    fun operand => Follows.pure (op, operand)
  simp only [mul_one] at hoperand
  refine ((Follows.bind_mark sign_writable unaryOp_failsHere ?_ hoperand
    (expr_avoidsSign 8)).mapSpan _).mono unary_le
  intro s c d op hc hok
  obtain ⟨hat, hd⟩ := (unaryOp_eq_ok hc).1 hok
  refine ⟨op.symbol, op.symbol_mem, by cases op <;> decide, hat, hd, ?_⟩
  rintro _ ⟨a, rfl⟩
  exact ⟨op, a, rfl⟩

theorem binaryOp_follows {m : Nat} {ops : List BinaryOp} (hops : ops ∈ BinaryOp.levels)
    (hm : ∀ op ∈ ops, op.precedence = m) : (spaced (binaryOp ops)).Follows (operator m) := by
  have hwritable : Writable (operator m) := by
    have hne : ∀ ops ∈ BinaryOp.levels, ops ≠ [] := by decide
    obtain ⟨op, hop⟩ := List.exists_mem_of_ne_nil ops (hne ops hops)
    rw [← hm op hop]
    exact operator_writable op
  refine ⟨hwritable, fun n => (binaryOp_reads hops).imp ?_, fun s c f hc hf => ?_⟩
  · rintro _ op ⟨a, rfl, hop⟩
    exact ⟨op, a, hm op hop, rfl⟩
  · rw [binaryOp_failsHere ops hf]
    exact (Viable.here (skip_le hc) hwritable).after_trivia hc

theorem binary_follows {m : Nat} {ops : List BinaryOp} {operand : Parser Expr}
    (hops : ops ∈ BinaryOp.levels) (hm : ∀ op ∈ ops, op.precedence = m) (hpos : 1 ≤ m)
    (h : operand.Follows (expr (m + 1))) : (binary ops operand).Follows (expr m) := by
  have hright (op : BinaryOp) := (h.spaced (nil_notMem_expr (m + 1))).committed.bind
    fun right => Follows.pure (op, right)
  simp only [mul_one] at hright
  have hrule := h.bind fun head => ((binaryOp_follows hops hm).bind hright).many.bind fun rest =>
    Follows.pure (rest.foldl applyBinary head)
  rw [mul_one] at hrule
  exact hrule.mono (mul_kstar_le (expr_le hpos (Nat.le_succ m)) binary_le)

theorem binaries_follows (h : inner.Follows) : (binaries inner).Follows (expr 2) := by
  apply binary_follows (by decide) (by decide) (by decide)
  apply binary_follows (by decide) (by decide) (by decide)
  apply binary_follows (by decide) (by decide) (by decide)
  apply binary_follows (by decide) (by decide) (by decide)
  apply binary_follows (by decide) (by decide) (by decide)
  apply binary_follows (by decide) (by decide) (by decide)
  exact unary_follows h

theorem assignSign_follows : assignSign.Follows (mark "=") := by
  apply (FailsHere.literalBefore _ _).follows (mark_writable (by decide))
  intro n
  apply assignSign_reads.after.imp
  rintro _ t ⟨a, rfl⟩
  exact ⟨a, rfl⟩

theorem assignment_follows (h : inner.Follows) : (assignment inner).Follows (expr 1) := by
  apply Follows.describedAs
  apply Follows.choice (expr_writable (by decide) (by decide))
  simp only [List.forall_mem_cons, List.not_mem_nil, false_implies, implies_true, and_true]
  refine ⟨?_, (binaries_follows h).mono (expr_le (by decide) (by decide))⟩
  have hvalue := (assignSign_follows.spaced (nil_notMem_token _)).seqRight
    (h.assignment.deeper.spaced (nil_notMem_expr 1)).committed
  have hrule := name_follows.bind fun target =>
    hvalue.bind fun value => Follows.pure (target, value)
  rw [mul_one] at hrule
  exact (hrule.mapSpan _).mono assign_le

theorem InnerExpr.ofLevels_follows (n : Nat) : (InnerExpr.ofLevels n).Follows := by
  induction n with
  | zero =>
    exact ⟨.tooDeep (expr_writable (by decide) (by decide)),
      .tooDeep (expr_writable (by decide) (by decide))⟩
  | succ n ih => exact ⟨assignment_follows ih, unary_follows ih⟩

theorem expression_follows : expression.Follows (expr 1) :=
  .of_room fun n => (assignment_follows (InnerExpr.ofLevels_follows n)).labelled _

end Expressions

end Grammar

end BrookSyntax
