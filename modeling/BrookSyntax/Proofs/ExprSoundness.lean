import BrookSyntax.Proofs.Inversion
import BrookSyntax.Proofs.RuleBounds

namespace BrookSyntax

open BrookSyntax.Parser Source

theorem TokenKind.StartsExpr.ne_sign {kind : TokenKind} {n : Nat} {u : CodeUnit}
    (h : kind.StartsExpr n) (hs : kind.Starts u) : u ≠ CodeUnit.of '=' := by
  rintro rfl
  cases kind with
  | keyword word | name word => exact absurd hs.2 (by decide)
  | mark text =>
    have hhead : text.head? = some (CodeUnit.of '=') := hs
    rcases h with rfl | ⟨-, rfl | rfl⟩ <;> exact absurd hhead (by decide)
  | number value =>
    have hdigit : (CodeUnit.of '=').isDigit = true := hs
    exact absurd hdigit (by decide)
  | string value =>
    have hquote : CodeUnit.of '=' = CodeUnit.quote := hs
    exact absurd hquote (by decide)

theorem Source.tokenAt_of_no_sign {s : Source} {i : Nat} {m : Text} (hm : m ∈ marks)
    (hat : s.hasAt i m = true) (hc : s.hasAt i "//" = false)
    (hnext : s.unit? (i + m.length) ≠ some (CodeUnit.of '=')) :
    s.TokenAt i (.mark m) (i + m.length) := by
  apply tokenAt_mark hm hat _ hc
  intro m' hm' hpre hne
  obtain heq | rfl := marks_extension hm hm' hpre
  · exact absurd heq hne
  · rw [Bool.eq_false_iff]
    intro hat'
    exact hnext (hasAt_cons.1 (hasAt_append.1 hat').2).1

theorem DerivesExpr.tokenAt_before {s : Source} {i j k n : Nat} {ts : List Token} {e : Expr}
    {m : Text} (he : DerivesExpr k n ts e) (hi : i ≤ s.length) (hm : m ∈ marks)
    (hat : s.hasAt i m) (hn : s.NoTriviaAt i) (hl : s.LexedAfter (i + m.length) ts j) :
    s.TokenAt i (.mark m) (i + m.length) := by
  apply tokenAt_of_no_sign hm hat hn.comment
  intro hu
  obtain ⟨t, rest, rfl, ht⟩ := he.starts
  have hs := hl.starts (add_length_le hat hi) hu (noTriviaAt_of_unit hu rfl (by decide))
  exact ht.ne_sign hs rfl

theorem DerivesItems.of_repeated {k : Nat} {ts us : List Token} {e : Expr} {es : List Expr}
    (h : DerivesExpr k 1 ts e)
    (hs : Repeated (fun vs e => ∃ a ws, Token.mark "," a :: ws = vs ∧ DerivesExpr k 1 ws e) us es) :
    DerivesItems k (ts ++ us) (e :: es) := by
  induction hs generalizing ts e with
  | nil =>
    rw [List.append_nil]
    exact .single h
  | cons hr hs ih =>
    obtain ⟨a, ws, rfl, he⟩ := hr
    exact .cons a h (ih he)

theorem DerivesArgs.of_separated {k : Nat} {ts : List Token} {es : List Expr}
    (h : Separated (DerivesExpr k 1) ts es) : DerivesArgs k ts es := by
  obtain ⟨rfl, rfl⟩ | ⟨us, vs, e, rest, rfl, rfl, he, hs⟩ := h
  · exact .none k
  · exact .some (.of_repeated he hs)

namespace Grammar

variable {inner : InnerExpr} {n : Nat}

/-- The rules that expressions use further in read what the grammar derives where one construct less
may be opened. -/
structure InnerExpr.Sound (inner : InnerExpr) (n : Nat) : Prop where
  wellBehaved : inner.WellBehaved
  assignment : ∀ k, n = k + 1 → inner.assignment.Reads k (DerivesExpr k 1)
  unary : ∀ k, n = k + 1 → inner.unary.Reads k (DerivesExpr k 8)

theorem number_reads : number.Reads n (DerivesExpr n 10) := by
  intro s c d e hc hn hok
  obtain ⟨x, ht, hd, rfl⟩ := (number_eq_ok hc).1 hok
  exact ⟨hd, _, .single ht, .number n x _⟩

theorem string_reads : string.Reads n (DerivesExpr n 10) := by
  intro s c d e hc hn hok
  obtain ⟨v, ht, hd, rfl⟩ := (string_eq_ok hc).1 hok
  exact ⟨hd, _, .single ht, .string n v _⟩

theorem constant_reads : constant.Reads n (DerivesExpr n 10) := by
  apply Reads.choice
  simp only [List.forall_mem_cons, List.not_mem_nil, false_implies, implies_true, and_true]
  refine ⟨?_, ?_, ?_⟩
  · apply ((Reads.keyword (by decide)).mapSpan _).imp
    rintro _ _ ⟨t, ⟨a, rfl⟩, rfl⟩
    exact .true n a
  · apply ((Reads.keyword (by decide)).mapSpan _).imp
    rintro _ _ ⟨t, ⟨a, rfl⟩, rfl⟩
    exact .false n a
  · apply ((Reads.keyword (by decide)).mapSpan _).imp
    rintro _ _ ⟨t, ⟨a, rfl⟩, rfl⟩
    exact .null n a

theorem parenthesized_reads (h : inner.Sound n) :
    (parenthesized inner).Reads n (DerivesExpr n 10) := by
  have hopen := Reads.literal (n := n) (m := "(") (by decide)
  have hbody := ReadsAfter.deeper fun k hk =>
    (h.assignment k hk).after.closed (m := ")") (by decide)
  apply (hopen.seqRight hbody.committed).imp
  rintro _ e ⟨_, _, t, rfl, ⟨a, rfl⟩, k, rfl, us, b, rfl, he⟩
  exact .group a b he

theorem primary_reads (h : inner.Sound n) : (primary inner).Reads n (DerivesExpr n 10) := by
  apply Reads.choice
  simp only [List.forall_mem_cons, List.not_mem_nil, false_implies, implies_true, and_true]
  refine ⟨number_reads, string_reads, constant_reads, ?_, parenthesized_reads h⟩
  apply (Reads.name.map _).imp
  rintro _ _ ⟨⟨w, a⟩, ⟨_, rfl, rfl⟩, rfl⟩
  exact .name n w a

theorem arguments_reads (h : inner.Sound n) : (arguments inner).Reads n fun ts args =>
    ∃ k a us b, n = k + 1 ∧ ts = .mark "(" a :: (us ++ [.mark ")" b]) ∧ DerivesArgs k us args := by
  have hopen := Reads.literal (n := n) (m := "(") (by decide)
  have hbody := ReadsAfter.deeper fun k hk =>
    ((h.assignment k hk).sepBy h.wellBehaved.assignment comma_wellBehaved).closed (m := ")")
      (by decide)
  apply (hopen.seqRight hbody.committed).imp
  rintro _ args ⟨_, _, t, rfl, ⟨a, rfl⟩, k, rfl, us, b, rfl, he⟩
  exact ⟨k, a, us, b, rfl, rfl, .of_separated he⟩

theorem call_reads (h : inner.Sound n) :
    (mapSpan (spaced (arguments inner)) fun args span => (args, span.stop)).ReadsAfter n
      (DerivesCall n) := by
  intro s c d call hc hn hok
  obtain ⟨args, ha, rfl⟩ := mapSpan_eq_ok.1 hok
  obtain ⟨hd, ts, hl, k, a, us, b, rfl, rfl, hargs⟩ := (arguments_reads h).spaced hc hn ha
  refine ⟨hd, _, hl, k, a, us, b, rfl, rfl, hargs, ?_⟩
  have hstop := hl.extent (List.cons_ne_nil _ _)
  rw [Token.extent_stop] at hstop
  exact hstop.symm

theorem called_reads (h : inner.Sound n) : (called inner).Reads n (DerivesExpr n 9) := by
  have hadv := ((arguments_wellBehaved h.wellBehaved).spaced.mapSpan
    fun args span => (args, span.stop)).advances
  have hcalls := (call_reads h).many hadv
  apply ((primary_reads h).bind fun head => hcalls.bind fun calls => .pure _).imp
  rintro _ e ⟨ts, _, head, rfl, hhead, us, _, calls, rfl, hs, rfl, rfl⟩
  rw [List.append_nil]
  exact DerivesCall.foldl hs (hhead.loosen (by decide) (by decide))

theorem unary_reads (h : inner.Sound n) : (unary inner).Reads n (DerivesExpr n 8) := by
  apply Reads.describedAs
  apply Reads.choice
  simp only [List.forall_mem_cons, List.not_mem_nil, false_implies, implies_true, and_true]
  constructor
  · intro s c d e hc hn hok
    obtain ⟨⟨op, operand⟩, hp, rfl⟩ := mapSpan_eq_ok.1 hok
    obtain ⟨f, op', hop, hp⟩ := bind_eq_ok.1 hp
    obtain ⟨g, operand', hun, hpure⟩ := bind_eq_ok.1 hp
    obtain ⟨rfl, heq⟩ := pure_eq_ok.1 hpure
    cases heq
    obtain ⟨hat, rfl⟩ := (unaryOp_eq_ok hc).1 hop
    have hlen := add_length_le hat hc
    obtain ⟨hd, ts, hl, k, rfl, he⟩ :=
      (Reads.deeper h.unary).spaced.committed (c := ⟨_, c.depth⟩) hlen hn hun
    have hnt : s.NoTriviaAt c.offset := by
      have hu : ∃ u rest, op.symbol = u :: rest ∧ u.isSpace = false ∧ u ≠ CodeUnit.of '/' := by
        cases op with
        | not => exact ⟨_, _, rfl, rfl, by decide⟩
        | neg => exact ⟨_, _, rfl, rfl, by decide⟩
      obtain ⟨u, rest, hsym, hs, hne⟩ := hu
      rw [hsym] at hat
      exact noTriviaAt_of_unit (hasAt_cons.1 hat).1 hs hne
    have ht := he.tokenAt_before hc op.symbol_mem hat hnt hl
    have happ := (LexedAt.single ht).append_after hl
    refine ⟨hd, _, happ, ?_⟩
    have hspan : c.spanTo g s = _ := happ.extent.symm
    rw [hspan]
    exact .unary op _ he
  · exact (called_reads h).imp fun ts e he => he.loosen (by decide) (by decide)

/-- An operator and its right operand. -/
def operation (ops : List BinaryOp) (operand : Parser Expr) : Parser (BinaryOp × Expr) := do
  let op ← spaced (binaryOp ops)
  let right ← committed (spaced operand)
  pure (op, right)

theorem operation_wellBehaved (ops : List BinaryOp) {operand : Parser Expr}
    (h : operand.WellBehaved) : (operation ops operand).WellBehaved := by
  apply (binaryOp_wellBehaved ops).spaced.bind
  intro op
  apply h.spaced.committed.bind
  intro right
  exact .pure _

theorem binaryOp_reads {ops : List BinaryOp} (hops : ops ∈ BinaryOp.levels) :
    (spaced (binaryOp ops)).ReadsAfter n fun ts op =>
      ∃ a, [Token.mark op.symbol a] = ts ∧ op ∈ ops := by
  intro s c d op hc hn hok
  rw [spaced_apply] at hok
  obtain ⟨hop, ht, hd⟩ := (binaryOp_eq_ok hops (skip_le hc) (noTriviaAt_skip hc)).1 hok
  exact ⟨hd, _, (LexedAt.single ht).after hc, _, rfl, hop⟩

theorem operation_reads {m : Nat} {ops : List BinaryOp} {operand : Parser Expr}
    (hops : ops ∈ BinaryOp.levels) (hm : ∀ op ∈ ops, op.precedence = m)
    (h : operand.Reads n (DerivesExpr n (m + 1))) :
    (operation ops operand).ReadsAfter n (DerivesOperation n m) := by
  apply ((binaryOp_reads hops).bind fun op => h.spaced.committed.bind fun right => .pure _).imp
  rintro _ _ ⟨_, us, op, rfl, ⟨a, rfl, hop⟩, vs, _, right, rfl, hr, rfl, rfl⟩
  rw [List.append_nil]
  exact ⟨a, vs, rfl, hm op hop, hr⟩

theorem binary_reads {m : Nat} {ops : List BinaryOp} {operand : Parser Expr}
    (hops : ops ∈ BinaryOp.levels) (hm : ∀ op ∈ ops, op.precedence = m) (hpos : 1 ≤ m)
    (hw : operand.WellBehaved) (h : operand.Reads n (DerivesExpr n (m + 1))) :
    (binary ops operand).Reads n (DerivesExpr n m) := by
  have hrest := (operation_reads hops hm h).many (operation_wellBehaved ops hw).advances
  apply (h.bind fun head => hrest.bind fun rest => .pure _).imp
  rintro _ e ⟨ts, _, head, rfl, hhead, us, _, rest, rfl, hs, rfl, rfl⟩
  rw [List.append_nil]
  exact DerivesOperation.foldl hs (.tighter hpos hhead)

theorem binaries_reads (h : inner.Sound n) : (binaries inner).Reads n (DerivesExpr n 2) := by
  have hw8 := unary_wellBehaved h.wellBehaved
  have hw7 := binary_wellBehaved [.mul, .div, .rem] hw8
  have hw6 := binary_wellBehaved [.add, .sub] hw7
  have hw5 := binary_wellBehaved [.le, .ge, .lt, .gt] hw6
  have hw4 := binary_wellBehaved [.eq, .ne] hw5
  have hw3 := binary_wellBehaved [.and] hw4
  apply binary_reads (by decide) (by decide) (by decide) hw3
  apply binary_reads (by decide) (by decide) (by decide) hw4
  apply binary_reads (by decide) (by decide) (by decide) hw5
  apply binary_reads (by decide) (by decide) (by decide) hw6
  apply binary_reads (by decide) (by decide) (by decide) hw7
  apply binary_reads (by decide) (by decide) (by decide) hw8
  exact unary_reads h

theorem assignSign_reads : assignSign.Reads n fun ts _ => ∃ a, [Token.mark "=" a] = ts := by
  intro s c d t hc hn hok
  obtain ⟨ht, hd, -⟩ := (assignSign_eq_ok hc).1 hok
  exact ⟨hd, _, .single ht, _, rfl⟩

theorem assignment_reads (h : inner.Sound n) : (assignment inner).Reads n (DerivesExpr n 1) := by
  apply Reads.describedAs
  apply Reads.choice
  simp only [List.forall_mem_cons, List.not_mem_nil, false_implies, implies_true, and_true]
  constructor
  · have hvalue := assignSign_reads.spaced.seqRight (Reads.deeper h.assignment).spaced.committed
    apply ((Reads.name.bind fun target => hvalue.bind fun value => .pure _).mapSpan _).imp
    rintro _ _ ⟨⟨⟨w, a⟩, value⟩, ⟨_, _, target, rfl, ⟨_, rfl, rfl⟩, _, _, _, rfl,
      ⟨_, us, t, rfl, ⟨b, rfl⟩, k, rfl, hv⟩, rfl, heq⟩, rfl⟩
    cases heq
    rw [List.append_nil]
    exact .assign _ _ b hv
  · exact (binaries_reads h).imp fun ts e he => he.loosen (by decide) (by decide)

theorem InnerExpr.ofLevels_sound (n : Nat) : (InnerExpr.ofLevels n).Sound n := by
  induction n with
  | zero => exact ⟨ofLevels_wellBehaved 0, fun k hk => (nomatch hk), fun k hk => (nomatch hk)⟩
  | succ n ih =>
    refine ⟨ofLevels_wellBehaved (n + 1), ?_, ?_⟩
    · intro k hk
      cases hk
      exact assignment_reads ih
    · intro k hk
      cases hk
      exact unary_reads ih

theorem expression_reads : expression.Reads n (DerivesExpr n 1) := by
  intro s c d e hc hn hok
  have hok := labelled_eq_ok.1 hok
  rw [hn] at hok
  exact assignment_reads (InnerExpr.ofLevels_sound n) hc hn hok

end Grammar

end BrookSyntax
