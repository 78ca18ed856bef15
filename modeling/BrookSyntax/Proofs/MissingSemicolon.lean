import BrookSyntax.Proofs.ExprCommitment
import BrookSyntax.Proofs.FailureCatalogue
import BrookSyntax.Proofs.TokenLanguages

namespace BrookSyntax

variable {n : Nat} {ts us : List Token}

/-- With a semicolon at their end the tokens are a statement, and no conditional. -/
def LacksEnd (n : Nat) (ts : List Token) : Prop :=
  ∀ a, ∃ stmt, DerivesStmt n (ts ++ [.mark ";" a]) stmt ∧
    ∀ condition thenBlock elseBlock b, stmt ≠ .conditional condition thenBlock elseBlock b

theorem LacksEnd.mono {k : Nat} (h : LacksEnd k ts) (hkn : k ≤ n) : LacksEnd n ts := by
  intro a
  obtain ⟨stmt, hst, hne⟩ := h a
  exact ⟨stmt, hst.mono hkn, hne⟩

/-- The innermost construct of the failure has been read but for its semicolon, which is missing
after the trivia that follows. -/
def Failure.LacksSemicolon (s : Source) (f : Failure) : Prop :=
  ∃ frame ts m, f.innermost? = some frame ∧ frame.offset ≤ s.length ∧
    s.LexedAt frame.offset ts m ∧ s.skip m = f.offset ∧ LacksEnd 128 ts

/-- The failure is not for want of a semicolon. -/
def Failure.SparesSemicolon (f : Failure) : Prop := f.cause ≠ .literal ";"

namespace Parser

open Source

variable {α β γ : Type}

/-- Where the parser fails for want of a semicolon, it has read tokens of a kind that start at the
cursor, and is in no construct. -/
def Misses (p : Parser α) (n : Nat) (R : List Token → Prop) : Prop :=
  ∀ ⦃s : Source⦄ ⦃c : Cursor⦄ ⦃f : Failure⦄, c.offset ≤ s.length → c.room = n →
    p s c = .failed f → f.cause = .literal ";" →
    f.frames = [] ∧ ∃ ts m, s.LexedAt c.offset ts m ∧ s.skip m = f.offset ∧ R ts

/-- The same, but for trivia before the first token; there need not be any token. -/
def MissesAfter (p : Parser α) (n : Nat) (R : List Token → Prop) : Prop :=
  ∀ ⦃s : Source⦄ ⦃c : Cursor⦄ ⦃f : Failure⦄, c.offset ≤ s.length → c.room = n →
    p s c = .failed f → f.cause = .literal ";" →
    f.frames = [] ∧ ∃ ts m, s.LexedAfter c.offset ts m ∧ s.skip m = f.offset ∧ R ts

/-- Where the parser fails for want of a semicolon, its innermost construct is a statement without
one. -/
def TellsSemicolon (p : Parser α) : Prop :=
  ∀ ⦃s : Source⦄ ⦃c : Cursor⦄ ⦃f : Failure⦄, c.offset ≤ s.length → c.room ≤ 128 →
    p s c = .failed f → f.cause = .literal ";" → f.LacksSemicolon s

section Spares

theorem spares_literal {t : Text} (ht : t ≠ ";") :
    (literal t).FailsWith Failure.SparesSemicolon := by
  intro s c f _ hf hcause
  obtain ⟨-, rfl⟩ := literal_eq_failed.1 hf
  exact ht (Cause.literal.inj hcause)

theorem spares_keyword {w : Text} (hw : w ∈ keywords) :
    (keyword w).FailsWith Failure.SparesSemicolon := by
  intro s c f _ hf hcause
  obtain ⟨-, rfl⟩ := literalBefore_eq_failed.1 hf
  obtain rfl := Cause.literal.inj hcause
  exact absurd hw (by decide)

end Spares

section Missing

variable {p : Parser α} {R : List Token → Prop}

theorem MissesAfter.committed (hp : p.MissesAfter n R) : (committed p).MissesAfter n R := by
  intro s c f hc hn hf hcause
  obtain ⟨g, hg, rfl⟩ := committed_eq_failed.1 hf
  exact hp (f := g) hc hn hg hcause

theorem Misses.mapSpan (hp : p.Misses n R) (g : α → Span → β) : (mapSpan p g).Misses n R := by
  intro s c f hc hn hf
  exact hp hc hn (mapSpan_eq_failed.1 hf)

theorem MissesAfter.bind_pure (hp : p.MissesAfter n R) (g : α → β) :
    (p >>= fun a => pure (g a)).MissesAfter n R := by
  intro s c f hc hn hf
  obtain hf | ⟨d, a, -, hf⟩ := bind_eq_failed.1 hf
  · exact hp hc hn hf
  · cases hf

theorem Misses.bind {S : List Token → α → Prop} {T : α → List Token → Prop} {g : α → Parser β}
    (hp : p.Reads n S) (hspares : p.FailsWith Failure.SparesSemicolon)
    (hg : ∀ a, (g a).MissesAfter n (T a)) :
    (p >>= g).Misses n fun ts => ∃ us vs a, us ++ vs = ts ∧ S us a ∧ T a vs := by
  intro s c f hc hn hf hcause
  obtain hf | ⟨d, a, ha, hf⟩ := bind_eq_failed.1 hf
  · exact absurd hcause (hspares hc hf)
  · obtain ⟨hd, us, hl, hs⟩ := hp hc hn ha
    obtain ⟨hframes, vs, m, hl', hskip, ht⟩ :=
      hg a (hl.bounds hc).2 ((Cursor.room_congr hd).trans hn) hf hcause
    exact ⟨hframes, us ++ vs, m, hl.append_after hl', hskip, us, vs, a, rfl, hs, ht⟩

theorem MissesAfter.bind {S : List Token → α → Prop} {T : α → List Token → Prop}
    {g : α → Parser β} (hp : p.ReadsAfter n S) (hspares : p.FailsWith Failure.SparesSemicolon)
    (hg : ∀ a, (g a).MissesAfter n (T a)) :
    (p >>= g).MissesAfter n fun ts => ∃ us vs a, us ++ vs = ts ∧ S us a ∧ T a vs := by
  intro s c f hc hn hf hcause
  obtain hf | ⟨d, a, ha, hf⟩ := bind_eq_failed.1 hf
  · exact absurd hcause (hspares hc hf)
  · obtain ⟨hd, us, hl, hs⟩ := hp hc hn ha
    obtain ⟨hframes, vs, m, hl', hskip, ht⟩ :=
      hg a (hl.bounds hc).2 ((Cursor.room_congr hd).trans hn) hf hcause
    exact ⟨hframes, us ++ vs, m, hl.append hl', hskip, us, vs, a, rfl, hs, ht⟩

theorem Misses.seqRight {S : List Token → α → Prop} {q : Parser β} (hp : p.Reads n S)
    (hspares : p.FailsWith Failure.SparesSemicolon) (hq : q.MissesAfter n R) :
    (p *> q).Misses n fun ts => ∃ us vs a, us ++ vs = ts ∧ S us a ∧ R vs := by
  intro s c f hc hn hf
  exact Misses.bind hp hspares (fun _ => hq) hc hn (bind_eq_failed.2 (seqRight_eq_failed.1 hf))

theorem Misses.seqLeft {S : List Token → α → Prop} {q : Parser β} (hp : p.Reads n S)
    (hspares : p.FailsWith Failure.SparesSemicolon) (hq : q.MissesAfter n R) :
    (p <* q).Misses n fun ts => ∃ us vs a, us ++ vs = ts ∧ S us a ∧ R vs := by
  intro s c f hc hn hf
  exact Misses.bind hp hspares (fun _ => hq) hc hn (bind_eq_failed.2 (seqLeft_eq_failed.1 hf))

theorem MissesAfter.seqLeft {S : List Token → α → Prop} {q : Parser β} (hp : p.ReadsAfter n S)
    (hspares : p.FailsWith Failure.SparesSemicolon) (hq : q.MissesAfter n R) :
    (p <* q).MissesAfter n fun ts => ∃ us vs a, us ++ vs = ts ∧ S us a ∧ R vs := by
  intro s c f hc hn hf
  exact MissesAfter.bind hp hspares (fun _ => hq) hc hn
    (bind_eq_failed.2 (seqLeft_eq_failed.1 hf))

theorem TellsSemicolon.of_misses {R : Nat → List Token → Prop} (hp : ∀ n, p.Misses n (R n))
    (hR : ∀ n ts, R n ts → LacksEnd n ts) (label : Text) : (labelled label p).TellsSemicolon := by
  intro s c f hc hn hf hcause
  obtain ⟨g, hg, rfl⟩ := labelled_eq_failed.1 hf
  obtain ⟨hframes, ts, m, hl, hskip, hr⟩ := hp c.room hc rfl hg hcause
  have hinner : (g.within label c.offset).innermost? = some ⟨label, c.offset⟩ := by
    rw [Failure.innermost?, Failure.within, hframes]
    rfl
  exact ⟨_, ts, m, hinner, hc, hl, hskip, (hR _ ts hr).mono hn⟩

end Missing

section Telling

variable {p : Parser α}

theorem FailsWith.tellsSemicolon (hp : p.FailsWith Failure.SparesSemicolon) : p.TellsSemicolon :=
  fun _ _ _ hc _ hf hcause => absurd hcause (hp hc hf)

theorem TellsSemicolon.pure (a : α) : (pure a : Parser α).TellsSemicolon :=
  fun _ _ _ _ _ hf => nomatch hf

theorem TellsSemicolon.bind {g : α → Parser β} (hp : p.TellsSemicolon) (hw : p.WellBehaved)
    (hg : ∀ a, (g a).TellsSemicolon) : (p >>= g).TellsSemicolon := by
  intro s c f hc hn hf
  obtain hf | ⟨d, a, ha, hf⟩ := bind_eq_failed.1 hf
  · exact hp hc hn hf
  · have hwithin := hw s c hc
    rw [ha] at hwithin
    obtain ⟨hdepth, -, hd⟩ := hwithin
    have hroom := Cursor.room_congr hdepth
    exact hg a hd (hroom.trans_le hn) hf

theorem TellsSemicolon.seqRight {q : Parser β} (hp : p.TellsSemicolon) (hw : p.WellBehaved)
    (hq : q.TellsSemicolon) : (p *> q).TellsSemicolon := by
  intro s c f hc hn hf
  exact hp.bind hw (fun _ => hq) hc hn hf

theorem TellsSemicolon.spaced (hp : p.TellsSemicolon) : (spaced p).TellsSemicolon :=
  FailsWith.trivia.tellsSemicolon.seqRight .trivia hp

theorem TellsSemicolon.map (hp : p.TellsSemicolon) (g : α → β) : (g <$> p).TellsSemicolon :=
  fun _ _ _ hc hn hf => hp hc hn (map_eq_failed.1 hf)

theorem TellsSemicolon.mapSpan (hp : p.TellsSemicolon) (g : α → Span → β) :
    (mapSpan p g).TellsSemicolon :=
  fun _ _ _ hc hn hf => hp hc hn (mapSpan_eq_failed.1 hf)

theorem TellsSemicolon.optional (hp : p.TellsSemicolon) : (optional p).TellsSemicolon :=
  fun _ _ _ hc hn hf => hp hc hn (optional_eq_failed.1 hf).1

theorem TellsSemicolon.committed (hp : p.TellsSemicolon) : (committed p).TellsSemicolon := by
  intro s c f hc hn hf hcause
  obtain ⟨g, hg, rfl⟩ := committed_eq_failed.1 hf
  exact hp (f := g) hc hn hg hcause

theorem TellsSemicolon.labelled (hp : p.TellsSemicolon) (label : Text) :
    (labelled label p).TellsSemicolon := by
  intro s c f hc hn hf hcause
  obtain ⟨g, hg, rfl⟩ := labelled_eq_failed.1 hf
  obtain ⟨frame, ts, m, hinner, hrest⟩ := hp hc hn hg hcause
  exact ⟨frame, ts, m, Failure.innermost?_within hinner label c.offset, hrest⟩

theorem TellsSemicolon.deeper (hp : p.TellsSemicolon) : (deeper p).TellsSemicolon := by
  intro s c f hc hn hf hcause
  obtain ⟨-, hf⟩ | ⟨-, hf⟩ := deeper_eq_failed.1 hf
  · cases hf
    cases hcause
  · have hroom : (⟨c.offset, c.depth + 1⟩ : Cursor).room ≤ 128 := by
      simp only [Cursor.room] at hn ⊢
      omega
    exact hp (c := ⟨c.offset, c.depth + 1⟩) hc hroom hf hcause

/-- A choice that fails for want of one thing does so with one of its alternatives. -/
theorem TellsSemicolon.choice {ps : List (Parser α)} (h : ∀ p ∈ ps, p.TellsSemicolon) :
    (choice ps).TellsSemicolon := by
  intro s c f hc hn hf hcause
  obtain ⟨p, hp, hf, -⟩ | ⟨fs, hfs, rfl⟩ := choice_eq_failed hf
  · exact h p hp hc hn hf hcause
  · obtain ⟨causes, hmerge⟩ | hmem := Failure.merge_cause c.offset fs
    · rw [hmerge] at hcause
      cases hcause
    · have hall : ∀ f ∈ fs, f.cause = .literal ";" → f.LacksSemicolon s :=
        List.Forall₂.forall_mem_right hfs fun p hp f hf => h p hp hc hn hf.1
      exact hall _ hmem hcause

end Telling

end Parser

namespace Grammar

open BrookSyntax.Parser

variable {α β : Type}

theorem semicolon_misses : semicolon.MissesAfter n fun ts => ts = [] := by
  intro s c f hc hn hf _
  rw [semicolon, spaced_apply] at hf
  obtain ⟨-, rfl⟩ := literal_eq_failed.1 hf
  exact ⟨rfl, [], c.offset, .inl ⟨rfl, rfl⟩, rfl, rfl⟩

theorem expression_spares : expression.FailsWith Failure.SparesSemicolon := by
  intro s c f hc hf hcause
  obtain ⟨g, hg, rfl⟩ := labelled_eq_failed.1 hf
  have hin := (InnerExpr.ofLevels_failsInside (c.room + 1)).assignment hc hg
  have hcauses := hin.cause
  rw [show g.cause = .literal ";" from hcause] at hcauses
  have hsign : (";" : Text) ≠ ")" := by decide
  simp [expressionCauses, hsign] at hcauses

theorem identifier_spares : identifier.FailsWith Failure.SparesSemicolon := by
  intro s c f hc hf hcause
  have hcom : f.committed = false := name_neverCommits (mapSpan_eq_failed.2 hf)
  obtain rfl := identifier_fails.of_open hc ⟨hf, hcom⟩
  cases hcause

theorem keyword_rule_misses {p : Parser α} {R : Nat → List Token → Prop} {w : Text}
    (hw : w ∈ keywords) (hp : ∀ n, p.MissesAfter n (R n))
    (hR : ∀ n a ts, R n ts → LacksEnd n (.keyword w a :: ts)) (label : Text)
    (g : α → Span → β) :
    (labelled label (mapSpan (keyword w *> committed p) g)).TellsSemicolon := by
  have hrule (n : Nat) :=
    (Misses.seqRight (Reads.keyword (n := n) hw) (spares_keyword hw) (hp n).committed).mapSpan g
  refine .of_misses hrule ?_ label
  rintro n _ ⟨_, ts, t, rfl, ⟨a, rfl⟩, hr⟩
  exact hR n a ts hr

theorem breakLoop_tells : breakLoop.TellsSemicolon := by
  refine keyword_rule_misses (by decide) (fun n => semicolon_misses) ?_ _ _
  rintro n a _ rfl b
  exact ⟨_, .breakLoop n a b, nofun⟩

theorem continueLoop_tells : continueLoop.TellsSemicolon := by
  refine keyword_rule_misses (by decide) (fun n => semicolon_misses) ?_ _ _
  rintro n a _ rfl b
  exact ⟨_, .continueLoop n a b, nofun⟩

theorem returnValue_tells : returnValue.TellsSemicolon := by
  refine keyword_rule_misses (by decide) (fun n => MissesAfter.seqLeft returned_reads
    expression_spares.spaced.optional semicolon_misses) ?_ _ _
  rintro n a _ ⟨ts, _, value, rfl, hvalue, rfl⟩ b
  rw [List.append_nil]
  exact ⟨_, .returnValue a b hvalue, nofun⟩

theorem letBinding_tells : letBinding.TellsSemicolon := by
  have hinit : initializer.FailsWith Failure.SparesSemicolon :=
    ((spares_literal (by decide)).spaced.seqRight (WellBehaved.literal _).spaced
      (expression_spares.spaced.committed fun _ => id)).optional
  refine keyword_rule_misses (by decide) (fun n => MissesAfter.bind Reads.identifier.spaced
    identifier_spares.spaced fun word => (MissesAfter.seqLeft initializer_reads hinit
      semicolon_misses).bind_pure fun init => (word, init)) ?_ _ _
  rintro n a _ ⟨_, _, word, rfl, ⟨b, rfl⟩, ts, _, init, rfl, hvalue, rfl⟩ d
  rw [List.append_nil]
  exact ⟨_, .letBinding word a b d hvalue, nofun⟩

theorem constBinding_tells : constBinding.TellsSemicolon := by
  have hinit : (spaced (literal "=") *> spaced expression).FailsWith Failure.SparesSemicolon :=
    (spares_literal (by decide)).spaced.seqRight (WellBehaved.literal _).spaced
      expression_spares.spaced
  refine keyword_rule_misses (by decide) (fun n => MissesAfter.bind Reads.identifier.spaced
    identifier_spares.spaced fun word => (MissesAfter.seqLeft bound_reads hinit
      semicolon_misses).bind_pure fun init => (word, init)) ?_ _ _
  rintro n a _ ⟨_, _, word, rfl, ⟨b, rfl⟩, _, _, init, rfl, ⟨d, ts, rfl, hvalue⟩, rfl⟩ e
  rw [List.append_nil]
  exact ⟨_, .constBinding word a b d e hvalue, nofun⟩

theorem expressionStmt_tells : expressionStmt.TellsSemicolon := by
  refine .of_misses (fun n => (Misses.seqLeft (expression_reads (n := n)) expression_spares
    semicolon_misses).mapSpan _) ?_ _
  rintro n _ ⟨ts, _, e, rfl, he, rfl⟩ a
  rw [List.append_nil]
  exact ⟨_, .expression a he, nofun⟩

/-- The rules that statements use further in tell of semicolons. -/
structure InnerStmt.TellsSemicolon (inner : InnerStmt) : Prop where
  statement : inner.statement.TellsSemicolon
  conditional : inner.conditional.TellsSemicolon

section Rules

variable {inner : InnerStmt}

theorem statementsUntil_tells {statement : Parser Stmt} (terminator : Parser α) (expected : Text)
    (h : statement.TellsSemicolon) (hw : statement.Consumes) :
    (statementsUntil statement terminator expected).TellsSemicolon := by
  intro s c f hc hn hf hcause
  obtain ⟨d, hdepth, hd, -, ⟨-, rfl⟩ | ⟨-, hst⟩⟩ :=
    statementsWithin_failed hw.wellBehaved hw.moves hc (by omega) hf
  · cases hcause
  · exact h hd ((Cursor.room_congr hdepth).trans_le hn) hst hcause

theorem blockWith_tells (h : inner.TellsSemicolon) (hfail : inner.Fails) :
    (blockWith inner).TellsSemicolon := by
  have hbody := statementsUntil_tells (literal "\x7d") "\x7d" h.statement
    ⟨hfail.wellBehaved.statement, hfail.moves⟩
  exact (((spares_literal (by decide)).tellsSemicolon.seqRight (.literal _)
    hbody.deeper.committed).mapSpan _).labelled _

theorem elseWith_tells (h : inner.TellsSemicolon) (hfail : inner.Fails) :
    (elseWith inner).TellsSemicolon := by
  refine (spares_keyword (by decide)).tellsSemicolon.spaced.seqRight (WellBehaved.keyword _).spaced
    (TellsSemicolon.spaced ?_).committed
  apply TellsSemicolon.choice
  simp only [List.forall_mem_cons, List.not_mem_nil, false_implies, implies_true, and_true]
  exact ⟨blockWith_tells h hfail, h.conditional.deeper.map _⟩

theorem keyword_rule_tells {p : Parser α} {w : Text} (hw : w ∈ keywords) (hp : p.TellsSemicolon)
    (label : Text) (g : α → Span → β) :
    (labelled label (mapSpan (keyword w *> committed p) g)).TellsSemicolon :=
  (((spares_keyword hw).tellsSemicolon.seqRight (.keyword _) hp.committed).mapSpan g).labelled label

theorem conditionalWith_tells (h : inner.TellsSemicolon) (hfail : inner.Fails) :
    (conditionalWith inner).TellsSemicolon := by
  have hblock := blockWith_wellBehaved hfail.wellBehaved
  apply keyword_rule_tells (by decide)
  apply expression_spares.tellsSemicolon.spaced.bind expression_wellBehaved.spaced
  intro condition
  apply (blockWith_tells h hfail).spaced.bind hblock.spaced
  intro thenBlock
  apply (elseWith_tells h hfail).optional.bind (elseWith_wellBehaved hfail.wellBehaved).optional
  intro elseBlock
  exact .pure _

theorem whileWith_tells (h : inner.TellsSemicolon) (hfail : inner.Fails) :
    (whileWith inner).TellsSemicolon := by
  apply keyword_rule_tells (by decide)
  apply expression_spares.tellsSemicolon.spaced.bind expression_wellBehaved.spaced
  intro condition
  apply (blockWith_tells h hfail).spaced.bind (blockWith_wellBehaved hfail.wellBehaved).spaced
  intro body
  exact .pure _

theorem loopWith_tells (h : inner.TellsSemicolon) (hfail : inner.Fails) :
    (loopWith inner).TellsSemicolon :=
  keyword_rule_tells (by decide) (blockWith_tells h hfail).spaced _ _

theorem parameters_spares : parameters.FailsWith Failure.SparesSemicolon := by
  have hopen := (spares_literal (t := "(") (by decide)).seqRight (.literal _) .trivia
  have hcomma : comma.FailsWith Failure.SparesSemicolon :=
    (spares_literal (by decide)).spaced.seqRight (WellBehaved.literal _).spaced .trivia
  have hnames := identifier_spares.commitsWith.sepBy identifier_wellBehaved hcomma.commitsWith
    comma_wellBehaved
  exact hopen.between ((WellBehaved.literal _).seqRight .trivia) hnames
    (identifier_wellBehaved.sepBy comma_wellBehaved) (spares_literal (by decide)).spaced

theorem functionWith_tells (h : inner.TellsSemicolon) (hfail : inner.Fails) :
    (functionWith inner).TellsSemicolon := by
  apply keyword_rule_tells (by decide)
  apply identifier_spares.tellsSemicolon.spaced.bind identifier_wellBehaved.spaced
  intro name
  apply parameters_spares.tellsSemicolon.spaced.bind parameters_wellBehaved.spaced
  intro params
  apply (blockWith_tells h hfail).spaced.bind (blockWith_wellBehaved hfail.wellBehaved).spaced
  intro body
  exact .pure _

theorem statementWith_tells (h : inner.TellsSemicolon) (hfail : inner.Fails) :
    (statementWith inner).TellsSemicolon := by
  apply TellsSemicolon.choice
  simp only [List.forall_mem_cons, List.not_mem_nil, false_implies, implies_true, and_true]
  exact ⟨(blockWith_tells h hfail).map _, conditionalWith_tells h hfail, whileWith_tells h hfail,
    loopWith_tells h hfail, breakLoop_tells, continueLoop_tells, returnValue_tells,
    letBinding_tells, constBinding_tells, functionWith_tells h hfail, expressionStmt_tells⟩

theorem InnerStmt.ofLevels_tells (n : Nat) : (InnerStmt.ofLevels n).TellsSemicolon := by
  induction n with
  | zero =>
    have hdeep : (tooDeep : Parser Stmt).TellsSemicolon := by
      rintro s c _ - - ⟨⟩ ⟨⟩
    exact ⟨hdeep, hdeep⟩
  | succ n ih =>
    have hfail := InnerStmt.ofLevels_fails n
    exact ⟨statementWith_tells ih hfail, conditionalWith_tells ih hfail⟩

end Rules

theorem statement_tells : statement.TellsSemicolon := fun _ c _ hc hn hf =>
  statementWith_tells (InnerStmt.ofLevels_tells c.room) (InnerStmt.ofLevels_fails c.room) hc hn hf

/-- Where a program fails for want of a semicolon, a statement of it lacks one. -/
theorem program_tells : program.TellsSemicolon :=
  ((statementsUntil_tells endOfInput "end of input" statement_tells statement_consumes).mapSpan
    Program.mk).labelled "program"

end Grammar

end BrookSyntax
