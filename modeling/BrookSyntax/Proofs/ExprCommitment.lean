import BrookSyntax.Proofs.ExprBlame

namespace BrookSyntax

namespace Parser

variable {α β γ : Type} {Q : Failure → Prop}

/-- All failures of the parser have a property. -/
def FailsWith (Q : Failure → Prop) (p : Parser α) : Prop :=
  ∀ ⦃s : Source⦄ ⦃c : Cursor⦄ ⦃f : Failure⦄, c.offset ≤ s.length → p s c = .failed f → Q f

/-- All committed failures of the parser have a property. -/
def CommitsWith (Q : Failure → Prop) (p : Parser α) : Prop :=
  ∀ ⦃s : Source⦄ ⦃c : Cursor⦄ ⦃f : Failure⦄, c.offset ≤ s.length → p s c = .failed f →
    f.committed = true → Q f

/-- No failure of the parser is committed. -/
def NeverCommits (p : Parser α) : Prop :=
  ∀ ⦃s : Source⦄ ⦃c : Cursor⦄ ⦃f : Failure⦄, p s c = .failed f → f.committed = false

section Combinators

variable {p : Parser α} {q : Parser β} {r : Parser γ}

theorem NeverCommits.commitsWith (hp : p.NeverCommits) : p.CommitsWith Q := by
  intro s c f hc hf hcom
  rw [hp hf] at hcom
  cases hcom

theorem NeverCommits.literal (t : Text) : (literal t).NeverCommits := by
  intro s c f hf
  obtain ⟨-, rfl⟩ := literal_eq_failed.1 hf
  rfl

theorem NeverCommits.literalBefore (t : Text) (forbidden : Option CodeUnit → Bool) :
    (literalBefore t forbidden).NeverCommits := by
  intro s c f hf
  obtain ⟨-, rfl⟩ := literalBefore_eq_failed.1 hf
  rfl

theorem NeverCommits.satisfy (test : CodeUnit → Bool) (description : Text) :
    (satisfy test description).NeverCommits := by
  intro s c f hf
  obtain rfl := satisfy_eq_failed hf
  rfl

theorem NeverCommits.takeWhile (test : CodeUnit → Bool) : (takeWhile test).NeverCommits :=
  fun _ _ _ hf => nomatch hf

theorem NeverCommits.trivia : trivia.NeverCommits := fun _ _ _ hf => nomatch hf

theorem NeverCommits.pure (a : α) : (pure a : Parser α).NeverCommits := fun _ _ _ hf => nomatch hf

theorem NeverCommits.seqRight (hp : p.NeverCommits) (hq : q.NeverCommits) :
    (p *> q).NeverCommits := by
  intro s c f hf
  obtain hf | ⟨d, a, -, hf⟩ := seqRight_eq_failed.1 hf
  · exact hp hf
  · exact hq hf

theorem NeverCommits.spaced (hp : p.NeverCommits) : (spaced p).NeverCommits :=
  NeverCommits.trivia.seqRight hp

theorem NeverCommits.map (hp : p.NeverCommits) (g : α → β) : (g <$> p).NeverCommits :=
  fun _ _ _ hf => hp (map_eq_failed.1 hf)

theorem NeverCommits.mapSpan (hp : p.NeverCommits) (g : α → Span → β) :
    (mapSpan p g).NeverCommits :=
  fun _ _ _ hf => hp (mapSpan_eq_failed.1 hf)

theorem NeverCommits.consumed (hp : p.NeverCommits) : (consumed p).NeverCommits :=
  fun _ _ _ hf => hp (consumed_eq_failed.1 hf)

theorem NeverCommits.optional (hp : p.NeverCommits) : (optional p).NeverCommits :=
  fun _ _ _ hf => hp (optional_eq_failed.1 hf).1

theorem NeverCommits.choice {ps : List (Parser α)} (h : ∀ p ∈ ps, p.NeverCommits) :
    (choice ps).NeverCommits := by
  intro s c f hf
  obtain ⟨p, hp, hf, -⟩ | ⟨fs, hfs, rfl⟩ := choice_eq_failed hf
  · exact h p hp hf
  · exact merge_committed (List.Forall₂.forall_mem_right hfs fun _ _ _ h => h.2)

theorem FailsWith.commitsWith (hp : p.FailsWith Q) : p.CommitsWith Q :=
  fun _ _ _ hc hf _ => hp hc hf

theorem FailsWith.bind {g : α → Parser β} (hp : p.FailsWith Q) (hw : p.WellBehaved)
    (hg : ∀ a, (g a).FailsWith Q) : (p >>= g).FailsWith Q := by
  intro s c f hc hf
  obtain hf | ⟨d, a, ha, hf⟩ := bind_eq_failed.1 hf
  · exact hp hc hf
  · exact hg a (hw.advances hc ha).2 hf

theorem FailsWith.seqRight (hp : p.FailsWith Q) (hw : p.WellBehaved) (hq : q.FailsWith Q) :
    (p *> q).FailsWith Q := by
  intro s c f hc hf
  exact hp.bind hw (fun _ => hq) hc hf

theorem FailsWith.seqLeft (hp : p.FailsWith Q) (hw : p.WellBehaved) (hq : q.FailsWith Q) :
    (p <* q).FailsWith Q := by
  intro s c f hc hf
  obtain hf | ⟨d, a, ha, hf⟩ := seqLeft_eq_failed.1 hf
  · exact hp hc hf
  · exact hq (hw.advances hc ha).2 hf

theorem FailsWith.trivia : trivia.FailsWith Q := fun _ _ _ _ hf => nomatch hf

theorem FailsWith.spaced (hp : p.FailsWith Q) : (spaced p).FailsWith Q :=
  FailsWith.trivia.seqRight .trivia hp

theorem FailsWith.between (hp : p.FailsWith Q) (hw : p.WellBehaved) (hq : q.FailsWith Q)
    (hw' : q.WellBehaved) (hr : r.FailsWith Q) : (between p q r).FailsWith Q :=
  (hp.seqRight hw hq).seqLeft (hw.seqRight hw') hr

theorem FailsWith.deeper (hp : p.FailsWith Q)
    (hdeep : ∀ i, Q { cause := .token "nesting depth <= 128", offset := i, committed := true }) :
    (deeper p).FailsWith Q := by
  intro s c f hc hf
  obtain ⟨-, hf⟩ | ⟨-, hf⟩ := deeper_eq_failed.1 hf
  · cases hf
    exact hdeep c.offset
  · exact hp (c := ⟨c.offset, c.depth + 1⟩) hc hf

theorem FailsWith.committed (hp : p.FailsWith Q) (hcom : ∀ f, Q f → Q f.asCommitted) :
    (committed p).FailsWith Q := by
  intro s c f hc hf
  obtain ⟨g, hg, rfl⟩ := committed_eq_failed.1 hf
  exact hcom g (hp hc hg)

theorem FailsWith.optional (hp : p.FailsWith Q) : (optional p).FailsWith Q :=
  fun _ _ _ hc hf => hp hc (optional_eq_failed.1 hf).1

theorem CommitsWith.bind {g : α → Parser β} (hp : p.CommitsWith Q) (hw : p.WellBehaved)
    (hg : ∀ a, (g a).CommitsWith Q) : (p >>= g).CommitsWith Q := by
  intro s c f hc hf
  obtain hf | ⟨d, a, ha, hf⟩ := bind_eq_failed.1 hf
  · exact hp hc hf
  · exact hg a (hw.advances hc ha).2 hf

theorem CommitsWith.seqRight (hp : p.CommitsWith Q) (hw : p.WellBehaved) (hq : q.CommitsWith Q) :
    (p *> q).CommitsWith Q := by
  intro s c f hc hf
  exact hp.bind hw (fun _ => hq) hc hf

theorem CommitsWith.spaced (hp : p.CommitsWith Q) : (spaced p).CommitsWith Q :=
  FailsWith.trivia.commitsWith.seqRight .trivia hp

theorem CommitsWith.mapSpan (hp : p.CommitsWith Q) (g : α → Span → β) :
    (mapSpan p g).CommitsWith Q :=
  fun _ _ _ hc hf => hp hc (mapSpan_eq_failed.1 hf)

theorem CommitsWith.choice {ps : List (Parser α)} (h : ∀ p ∈ ps, p.CommitsWith Q) :
    (choice ps).CommitsWith Q := by
  intro s c f hc hf hcom
  obtain ⟨p, hp, hf, -⟩ | ⟨fs, hfs, rfl⟩ := choice_eq_failed hf
  · exact h p hp hc hf hcom
  · rw [merge_committed (List.Forall₂.forall_mem_right hfs fun _ _ _ h => h.2)] at hcom
    cases hcom

/-- What is named anew where it is expected was not committed. -/
theorem CommitsWith.describedAs (hp : p.CommitsWith Q) (description : Text) :
    (describedAs description p).CommitsWith Q := by
  intro s c f hc hf hcom
  obtain ⟨g, hg, ⟨-, rfl⟩ | ⟨-, rfl⟩⟩ := describedAs_eq_failed.1 hf
  · exact hp hc hg hcom
  · cases hcom

theorem CommitsWith.many (hp : p.CommitsWith Q) (hw : p.WellBehaved) : (many p).FailsWith Q := by
  intro s c f hc hf
  obtain ⟨as, d, hchain, hf, hcom⟩ := Chain.of_many_failed hw.advances hc hf
  have hd := hchain.le_length hw.advances hc
  exact hp hd hf hcom

theorem CommitsWith.sepBy (hp : p.CommitsWith Q) (hw : p.WellBehaved) (hq : q.CommitsWith Q)
    (hw' : q.WellBehaved) : (sepBy p q).FailsWith Q := by
  intro s c f hc hf
  obtain ⟨hf, hcom⟩ | ⟨d, a, ha, hf⟩ := sepBy_eq_failed.1 hf
  · exact hp hc hf hcom
  · exact (hq.seqRight hw' hp).many (hw'.seqRight hw) (hw.advances hc ha).2 hf

end Combinators

end Parser

namespace Grammar

open BrookSyntax.Parser

/-- What expressions fail with. The sign of assignment is not among them. -/
def expressionCauses : List Cause :=
  [.literal ")", .token "expression", .token "escape sequence", .token "finite number",
    .token "nesting depth <= 128", .endOfInput "\""]

/-- The failure of an expression that is not yet told as one. -/
structure InExpression (f : Failure) : Prop where
  cause : f.cause ∈ expressionCauses
  frames : f.frames = []

theorem InExpression.asCommitted {f : Failure} (h : InExpression f) :
    InExpression f.asCommitted := ⟨h.cause, h.frames⟩

theorem InExpression.of_noExpr {s : Source} {i : Nat} {f : Failure} (h : NoExpr s i f) :
    InExpression f := by
  rw [h]
  exact ⟨by simp [expressionCauses], rfl⟩

theorem number_commitsWith : number.CommitsWith InExpression := by
  have hnumeral : numeral.NeverCommits := by
    have hfraction :=
      (NeverCommits.literal ".").seqRight (NeverCommits.satisfy CodeUnit.isDigit "digit")
    exact (((NeverCommits.satisfy _ _).seqRight (.takeWhile _)).seqRight
      (hfraction.seqRight (.takeWhile _)).optional).consumed
  intro s c f hc hf hcom
  rw [number] at hf
  split at hf
  · next g hg =>
    cases hf
    rw [hnumeral hg] at hcom
    cases hcom
  · dsimp only at hf
    split at hf
    · cases hf
    · cases hf
      exact ⟨by simp [expressionCauses], rfl⟩

theorem string_commitsWith : string.CommitsWith InExpression := by
  intro s c f hc hf hcom
  rw [string] at hf
  split at hf
  · next hq =>
    have hlt := Source.lt_length_of_unit? hq
    split at hf
    · cases hf
    · next g hg =>
      cases hf
      obtain ⟨-, -, -, -, -, -, -, rfl | hf⟩ := Source.stringFrom_eq_error hlt (by omega) hg
      · exact ⟨by simp [expressionCauses], rfl⟩
      · rw [hf]
        exact ⟨by simp [expressionCauses], rfl⟩
  · cases hf
    cases hcom

theorem constant_neverCommits : constant.NeverCommits := by
  apply NeverCommits.choice
  simp only [List.forall_mem_cons, List.not_mem_nil, false_implies, implies_true, and_true]
  exact ⟨(NeverCommits.literalBefore _ _).mapSpan _, (NeverCommits.literalBefore _ _).mapSpan _,
    (NeverCommits.literalBefore _ _).mapSpan _⟩

theorem name_neverCommits : name.NeverCommits := by
  apply NeverCommits.mapSpan
  intro s c f hf
  rw [identifier] at hf
  split at hf
  · split at hf
    · cases hf
      rfl
    · cases hf
  · next g hg =>
    cases hf
    exact ((NeverCommits.satisfy _ _).seqRight (.takeWhile _)).consumed hg

theorem operator_neverCommits {α : Type} (text : α → Text) (ops : List α) :
    (choice (ops.map fun op => (fun _ => op) <$> literal (text op))).NeverCommits := by
  apply NeverCommits.choice
  intro p hp
  obtain ⟨op, -, rfl⟩ := List.mem_map.1 hp
  exact (NeverCommits.literal _).map _

/-- The rules that expressions use further in fail like the inside of an expression. -/
structure InnerExpr.FailsInside (inner : InnerExpr) : Prop where
  assignment : inner.assignment.FailsWith InExpression
  unary : inner.unary.FailsWith InExpression

section Expressions

variable {inner : InnerExpr}

theorem nesting_inExpression (i : Nat) :
    InExpression { cause := .token "nesting depth <= 128", offset := i, committed := true } :=
  ⟨by simp [expressionCauses], rfl⟩

theorem close_failsWith : (spaced (literal ")")).FailsWith InExpression := by
  apply FailsWith.spaced
  intro s c f hc hf
  obtain ⟨-, rfl⟩ := literal_eq_failed.1 hf
  exact ⟨by simp [expressionCauses], rfl⟩

theorem enclosed_commitsWith {α : Type} {p : Parser α} (h : p.FailsWith InExpression)
    (hw : p.WellBehaved) :
    (literal "(" *> committed (deeper (between trivia p (spaced (literal ")"))))).CommitsWith
      InExpression := by
  have hinside := FailsWith.between .trivia .trivia h hw close_failsWith
  have hrest := (hinside.deeper nesting_inExpression).committed fun _ => InExpression.asCommitted
  exact (NeverCommits.literal "(").commitsWith.seqRight (.literal _) hrest.commitsWith

theorem primary_commitsWith (h : inner.FailsInside) (hw : inner.WellBehaved) :
    (primary inner).CommitsWith InExpression := by
  apply CommitsWith.choice
  simp only [List.forall_mem_cons, List.not_mem_nil, false_implies, implies_true, and_true]
  exact ⟨number_commitsWith, string_commitsWith, constant_neverCommits.commitsWith,
    (name_neverCommits.map _).commitsWith, enclosed_commitsWith h.assignment hw.assignment⟩

theorem arguments_commitsWith (h : inner.FailsInside) (hw : inner.WellBehaved) :
    (arguments inner).CommitsWith InExpression := by
  have hcomma : comma.CommitsWith InExpression :=
    ((NeverCommits.literal ",").spaced.seqRight .trivia).commitsWith
  exact enclosed_commitsWith
    (h.assignment.commitsWith.sepBy hw.assignment hcomma comma_wellBehaved)
    (hw.assignment.sepBy comma_wellBehaved)

theorem called_commitsWith (h : inner.FailsInside) (hw : inner.WellBehaved) :
    (called inner).CommitsWith InExpression := by
  have hcall := (arguments_wellBehaved hw).spaced.mapSpan fun args span => (args, span.stop)
  have hcalls := ((arguments_commitsWith h hw).spaced.mapSpan fun args span =>
    (args, span.stop)).many hcall
  apply (primary_commitsWith h hw).bind (primary_wellBehaved hw)
  intro head
  apply hcalls.commitsWith.bind hcall.many
  intro calls
  exact (NeverCommits.pure _).commitsWith

theorem unary_commitsWith (h : inner.FailsInside) (hw : inner.WellBehaved) :
    (unary inner).CommitsWith InExpression := by
  have hop : unaryOp.CommitsWith InExpression :=
    (operator_neverCommits UnaryOp.symbol UnaryOp.all).commitsWith
  have hoperand := ((h.unary.deeper nesting_inExpression).spaced.committed fun _ =>
    InExpression.asCommitted).commitsWith
  apply CommitsWith.describedAs
  apply CommitsWith.choice
  simp only [List.forall_mem_cons, List.not_mem_nil, false_implies, implies_true, and_true]
  constructor
  · apply CommitsWith.mapSpan
    apply hop.bind unaryOp_wellBehaved
    intro op
    apply hoperand.bind hw.unary.deeper.spaced.committed
    intro operand
    exact (NeverCommits.pure _).commitsWith
  · exact called_commitsWith h hw

/-- A parser that expects an expression, or else fails for good inside of one. -/
theorem FailsAs.failsWith {p : Parser Expr} (h : p.FailsAs NoExpr)
    (hcom : p.CommitsWith InExpression) : p.FailsWith InExpression := by
  intro s c f hc hf
  obtain ⟨hyes, -⟩ | ⟨-, hbare⟩ := h hc hf
  · exact hcom hc hf hyes
  · exact .of_noExpr hbare

theorem binary_commitsWith (ops : List BinaryOp) {operand : Parser Expr}
    (hfail : operand.FailsAs NoOperand) (h : operand.CommitsWith InExpression)
    (hw : operand.WellBehaved) : (binary ops operand).CommitsWith InExpression := by
  have hright := ((FailsAs.failsWith (hfail.imp fun _ _ _ hf => hf.1) h).spaced.committed fun _ =>
    InExpression.asCommitted).commitsWith
  have hop : (binaryOp ops).CommitsWith InExpression :=
    (operator_neverCommits BinaryOp.symbol ops).commitsWith
  have hop' := (binaryOp_wellBehaved ops).spaced
  have hnext := hop.spaced.bind hop' fun op => hright.bind hw.spaced.committed fun right =>
    (NeverCommits.pure (op, right)).commitsWith
  have hnext' := hop'.bind fun op => hw.spaced.committed.bind fun right =>
    WellBehaved.pure (op, right)
  apply h.bind hw
  intro head
  apply (hnext.many hnext').commitsWith.bind hnext'.many
  intro rest
  exact (NeverCommits.pure _).commitsWith

theorem binaries_commitsWith (hfail : inner.Fails) (h : inner.FailsInside)
    (hw : inner.WellBehaved) : (binaries inner).CommitsWith InExpression := by
  have hall (levels : List (List BinaryOp)) :
      (levels.foldr binary (unary inner)).FailsAs NoOperand ∧
        (levels.foldr binary (unary inner)).CommitsWith InExpression := by
    induction levels with
    | nil => exact ⟨unary_fails hfail hw, unary_commitsWith h hw⟩
    | cons ops levels ih =>
      have hw' := foldr_binary_wellBehaved levels (unary_wellBehaved hw)
      exact ⟨binary_fails ops ih.1 hw', binary_commitsWith ops ih.1 ih.2 hw'⟩
  exact (hall BinaryOp.levels).2

theorem assignment_commitsWith (hfail : inner.Fails) (h : inner.FailsInside)
    (hw : inner.WellBehaved) : (assignment inner).CommitsWith InExpression := by
  have hname : name.CommitsWith InExpression := name_neverCommits.commitsWith
  have hsign : (spaced assignSign).CommitsWith InExpression :=
    NeverCommits.commitsWith (NeverCommits.literalBefore _ _).spaced
  have hsign' : (spaced assignSign).WellBehaved := (WellBehaved.literalBefore _ _).spaced
  have hvalue := ((h.assignment.deeper nesting_inExpression).spaced.committed fun _ =>
    InExpression.asCommitted).commitsWith
  have hvalue' := hw.assignment.deeper.spaced.committed
  apply CommitsWith.describedAs
  apply CommitsWith.choice
  simp only [List.forall_mem_cons, List.not_mem_nil, false_implies, implies_true, and_true]
  constructor
  · apply CommitsWith.mapSpan
    apply hname.bind name_wellBehaved
    intro target
    apply (hsign.seqRight hsign' hvalue).bind (hsign'.seqRight hvalue')
    intro value
    exact (NeverCommits.pure _).commitsWith
  · exact binaries_commitsWith hfail h hw

theorem InnerExpr.ofLevels_failsInside (n : Nat) : (InnerExpr.ofLevels n).FailsInside := by
  induction n with
  | zero =>
    have hdeep : (tooDeep : Parser Expr).FailsWith InExpression := by
      rintro s c _ - ⟨⟩
      exact nesting_inExpression c.offset
    exact ⟨hdeep, hdeep⟩
  | succ n ih =>
    have hfail := InnerExpr.ofLevels_fails n
    have hw := InnerExpr.ofLevels_wellBehaved n
    exact ⟨FailsAs.failsWith (assignment_fails hfail hw) (assignment_commitsWith hfail ih hw),
      FailsAs.failsWith ((unary_fails hfail hw).imp fun _ _ _ hf => hf.1)
        (unary_commitsWith ih hw)⟩

end Expressions

variable {s : Source} {c : Cursor} {f : Failure}

/-- An expression that fails without being committed has not begun: its failure is that an
expression is expected here. Every failure has the frame of the expression and no other, those that
got beyond the start are committed, and none of them, also where a name is followed by no sign of
assignment, asks for that sign. -/
theorem expression_commitment (hc : c.offset ≤ s.length) (h : expression s c = .failed f) :
    (f.committed = false → f =
      { cause := .token "expression", offset := c.offset, frames := [⟨"expression", c.offset⟩] }) ∧
    (c.offset < f.offset → f.committed = true) ∧
    f.frames = [⟨"expression", c.offset⟩] ∧
    f.cause ∈ expressionCauses ∧ ∀ leaf ∈ f.cause.leaves, leaf ≠ .literal "=" := by
  have hopen : f.committed = false → f =
      { cause := .token "expression", offset := c.offset,
        frames := [⟨"expression", c.offset⟩] } := by
    intro hcom
    exact expression_fails.of_open hc ⟨h, hcom⟩
  have hbeyond : c.offset < f.offset → f.committed = true := by
    intro hlt
    rw [← Bool.not_eq_false]
    intro hcom
    rw [hopen hcom] at hlt
    exact Nat.lt_irrefl _ hlt
  obtain ⟨g, hg, rfl⟩ := labelled_eq_failed.1 h
  have hfail := InnerExpr.ofLevels_fails c.room
  have hw := InnerExpr.ofLevels_wellBehaved c.room
  have hin := FailsAs.failsWith (assignment_fails hfail hw)
    (assignment_commitsWith hfail (InnerExpr.ofLevels_failsInside c.room) hw) hc hg
  refine ⟨hopen, hbeyond, ?_, hin.cause, ?_⟩
  · rw [Failure.within, hin.frames, List.nil_append]
  · have hcauses : ∀ cause ∈ expressionCauses, ∀ leaf ∈ cause.leaves, leaf ≠ .literal "=" := by
      have hsign : (")" : Text) ≠ "=" := by decide
      simpa [expressionCauses, Cause.leaves] using hsign
    exact hcauses _ hin.cause

/-- The operand missing in `a + ;` is told for good, the expression missing before `;` is not. -/
theorem expression_commitment_operand :
    (0 ≤ (Source.ofText "a + ;").length ∧ 4 ≤ (Source.ofText "a + ;").length) ∧
    (∃ f, expression (.ofText "a + ;") ⟨0, 0⟩ = .failed f ∧ f.committed = true ∧
      f.frames = [⟨"expression", 0⟩]) ∧
    ∃ f, expression (.ofText "a + ;") ⟨4, 0⟩ = .failed f ∧
      f = { cause := .token "expression", offset := 4, frames := [⟨"expression", 4⟩] } := by
  have hsign : expression (.ofText "a + ;") ⟨0, 0⟩ = .failed
      { cause := .token "expression", offset := 4, frames := [⟨"expression", 0⟩],
        committed := true } := by rfl
  have hmissing : expression (.ofText "a + ;") ⟨4, 0⟩ = .failed
      { cause := .token "expression", offset := 4, frames := [⟨"expression", 4⟩] } := by rfl
  obtain ⟨-, hbeyond, hframes, -⟩ := expression_commitment (c := ⟨0, 0⟩) (Nat.zero_le _) hsign
  obtain ⟨hopen, -⟩ := expression_commitment (c := ⟨4, 0⟩) (by decide) hmissing
  exact ⟨⟨Nat.zero_le _, by decide⟩, ⟨_, hsign, hbeyond (by decide), hframes⟩, _, hmissing,
    hopen rfl⟩

end Grammar

end BrookSyntax
