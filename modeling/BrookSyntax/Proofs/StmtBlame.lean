import BrookSyntax.Proofs.ExprBlame

namespace BrookSyntax

namespace Grammar

open BrookSyntax.Parser

variable {α β : Type}

/-- Statements fail where their end is not found: at the end of the source, or with a statement. -/
theorem statementsWithin_failed {statement : Parser Stmt} {terminator : Parser α} {expected : Text}
    {fuel : Nat} {s : Source} {c : Cursor} {f : Failure} (hw : statement.WellBehaved)
    (hm : statement.Moves) (hc : c.offset ≤ s.length) (hfuel : s.length < c.offset + fuel)
    (h : statementsWithin statement (attempt terminator) expected fuel s c = .failed f) :
    ∃ d : Cursor, d.depth = c.depth ∧ d.offset ≤ s.length ∧ (∃ g, terminator s d = .failed g) ∧
      (d.offset = s.length ∧ f = { cause := .openBlock expected, offset := s.length } ∨
        d.offset < s.length ∧ statement s d = .failed f) := by
  induction fuel generalizing c with
  | zero => omega
  | succ fuel ih =>
    have hskip := Source.skip_le hc
    have hle := Source.le_skip hc
    obtain hend | ⟨⟨e, hend⟩, hfailed⟩ := statementsWithin_succ_failed h
    · exact absurd hend attempt_ne_failed
    obtain ⟨hterm, -⟩ := attempt_eq_ok_none.1 hend
    obtain ⟨hge, rfl⟩ | ⟨hlt, hst | ⟨e, head, hst, htail⟩⟩ := hfailed
    · have hoffset := Nat.le_antisymm hskip hge
      exact ⟨⟨s.skip c.offset, c.depth⟩, rfl, hskip, hterm, .inl ⟨hoffset, by rw [hoffset]⟩⟩
    · exact ⟨⟨s.skip c.offset, c.depth⟩, rfl, hskip, hterm, .inr ⟨hlt, hst⟩⟩
    · have hmove : s.skip c.offset < e.offset := hm (c := ⟨_, c.depth⟩) hskip hst
      have hwithin := hw s ⟨s.skip c.offset, c.depth⟩ hskip
      rw [hst] at hwithin
      obtain ⟨hdepth, -, hlen⟩ := hwithin
      obtain ⟨d, hd, hrest⟩ := ih hlen (by omega) htail
      exact ⟨d, hd.trans hdepth, hrest⟩

/-- The rules that statements use further in fail with what is listed, and a conditional fails for
good once it has begun. -/
structure InnerStmt.Fails (inner : InnerStmt) : Prop where
  wellBehaved : inner.WellBehaved
  moves : inner.statement.Moves
  statement : inner.statement.FailsListed
  conditional : inner.conditional.FailsAs (Opens (.literal "if") "if_statement")

theorem Opens.listed {s : Source} {i : Nat} {f : Failure} {t label : Text}
    (ht : t ∈ ([";", ")", "(", "\x7b", "="] : List Text)) (h : Opens (.literal t) label s i f) :
    f.Listed s := by
  rw [h]
  exact .mark rfl ht

theorem expression_listed : expression.FailsListed := by
  apply expression_fails.listed
  rintro s i f rfl
  exact .token rfl (by decide)

theorem identifier_listed : identifier.FailsListed :=
  identifier_fails.listed_of_bare fun _ _ => .token rfl (by decide)

theorem semicolon_listed : semicolon.FailsListed := (FailsListed.literal (by decide)).spaced

section Blocks

variable {inner : InnerStmt}

theorem blockWith_fails (h : inner.Fails) :
    (blockWith inner).FailsAs (Opens (.literal "\x7b") "block") := by
  intro s c f hc hf
  obtain ⟨g, hg, rfl⟩ := labelled_eq_failed.1 hf
  obtain hopen | ⟨d, t, hopen, hbody⟩ := seqRight_eq_failed.1 (mapSpan_eq_failed.1 hg)
  · obtain ⟨-, rfl⟩ := literal_eq_failed.1 hopen
    exact .inr ⟨rfl, rfl⟩
  · obtain ⟨g, hg, rfl⟩ := committed_eq_failed.1 hbody
    refine .inl ⟨rfl, ?_⟩
    obtain ⟨-, rfl, -⟩ := (literal_eq_ok hc).1 hopen
    have hd := ((WellBehaved.literal "\x7b").advances hc hopen).2
    obtain ⟨-, hdeep⟩ | ⟨-, hdeep⟩ := deeper_eq_failed.1 hg
    · exact (tooDeep_committed.listed hd hdeep).asCommitted.within _ _
    · obtain ⟨e, -, he, -, ⟨-, rfl⟩ | ⟨-, hst⟩⟩ := statementsWithin_failed h.wellBehaved.statement
        h.moves (c := ⟨_, c.depth + 1⟩) hd (by dsimp only; omega) hdeep
      · exact .openBlock rfl rfl ⟨_, rfl⟩
      · exact (h.statement he hst).asCommitted.within _ _

theorem blockWith_listed (h : inner.Fails) : (blockWith inner).FailsListed :=
  (blockWith_fails h).listed fun _ _ _ => Opens.listed (by decide)

theorem Opens.blames {p : Parser α} {cause : Cause} {label : Text}
    (h : p.FailsAs (Opens cause label)) : p.Blames cause := by
  apply h.imp
  rintro s i f rfl
  exact ⟨rfl, rfl⟩

theorem elseBranch_fails (h : inner.Fails) :
    (choice [blockWith inner, (fun stmt => Block.mk [stmt] stmt.span) <$> deeper inner.conditional]
      ).FailsAs (Bare (.alternatives [.literal "\x7b", .literal "if"])) := by
  have hchained := h.conditional.deeper.map fun stmt => Block.mk [stmt] stmt.span
  have hchained' : (((fun stmt => Block.mk [stmt] stmt.span) <$> deeper inner.conditional)).Blames
      (.literal "if") := Opens.blames hchained
  have hchoice := FailsAs.choice_blames (V := fun _ _ _ => False)
    (.cons (Opens.blames (blockWith_fails h)) .nil) (hchained'.imp fun _ _ _ => .inl)
    (List.cons_ne_nil _ _)
  exact hchoice.imp fun _ _ _ hf => hf.resolve_right fun hf => hf.2

theorem elseWith_commitsListed (h : inner.Fails) : (elseWith inner).CommitsListed := by
  have hlisted := (elseBranch_fails h).listed_of_bare fun _ _ => .elseBranch rfl
  exact (FailsAs.keyword "else").commitsListed.spaced.seqRight (WellBehaved.keyword _).spaced
    hlisted.spaced.committed.commitsListed

end Blocks

theorem keyword_rule_fails {p : Parser α} (hp : p.FailsListed) (label word : Text)
    (g : α → Span → β) :
    (labelled label (mapSpan (keyword word *> committed p) g)).FailsAs
      (Opens (.literal word) label) := by
  have hrule := ((FailsAs.keyword word).seqRight (.keyword _) hp.committed).mapSpan g
  apply (hrule.labelled label).imp
  rintro s i f ⟨-, rfl, rfl⟩
  rfl

section Rules

variable {inner : InnerStmt}

theorem conditionalWith_fails (h : inner.Fails) :
    (conditionalWith inner).FailsAs (Opens (.literal "if") "if_statement") := by
  apply keyword_rule_fails
  apply expression_listed.spaced.bind expression_wellBehaved.spaced
  intro condition
  have hblock := blockWith_wellBehaved h.wellBehaved
  apply (blockWith_listed h).spaced.bind hblock.spaced
  intro thenBlock
  apply (elseWith_commitsListed h).optional.listed.bind
    (elseWith_wellBehaved h.wellBehaved).optional
  intro elseBlock
  exact .pure _

theorem whileWith_fails (h : inner.Fails) :
    (whileWith inner).FailsAs (Opens (.literal "while") "while_statement") := by
  apply keyword_rule_fails
  apply expression_listed.spaced.bind expression_wellBehaved.spaced
  intro condition
  apply (blockWith_listed h).spaced.bind (blockWith_wellBehaved h.wellBehaved).spaced
  intro body
  exact .pure _

theorem loopWith_fails (h : inner.Fails) :
    (loopWith inner).FailsAs (Opens (.literal "loop") "loop_statement") :=
  keyword_rule_fails (blockWith_listed h).spaced _ _ _

theorem breakLoop_fails : breakLoop.FailsAs (Opens (.literal "break") "break_statement") :=
  keyword_rule_fails semicolon_listed _ _ _

theorem continueLoop_fails :
    continueLoop.FailsAs (Opens (.literal "continue") "continue_statement") :=
  keyword_rule_fails semicolon_listed _ _ _

theorem returnValue_fails : returnValue.FailsAs (Opens (.literal "return") "return_statement") :=
  keyword_rule_fails (expression_fails.commitsListed.spaced.optional.listed.seqLeft
    expression_wellBehaved.spaced.optional semicolon_listed) _ _ _

theorem letBinding_fails : letBinding.FailsAs (Opens (.literal "let") "let_statement") := by
  have hvalue := expression_listed.spaced.committed
  have hinit : initializer.FailsCommitted :=
    ((FailsAs.literal "=").commitsListed.spaced.seqRight (WellBehaved.literal _).spaced
      hvalue.commitsListed).optional
  have hinit' : initializer.WellBehaved :=
    ((WellBehaved.literal _).spaced.seqRight expression_wellBehaved.spaced.committed).optional
  apply keyword_rule_fails
  apply identifier_listed.spaced.bind identifier_wellBehaved.spaced
  intro name
  apply (hinit.listed.seqLeft hinit' semicolon_listed).bind (hinit'.seqLeft semicolon_wellBehaved)
  intro init
  exact .pure _

theorem constBinding_fails : constBinding.FailsAs (Opens (.literal "const") "const_statement") := by
  have hsign : (literal "=").FailsListed := .literal (by decide)
  have hinit := hsign.spaced.seqRight (WellBehaved.literal _).spaced expression_listed.spaced
  have hinit' := (WellBehaved.literal "=").spaced.seqRight expression_wellBehaved.spaced
  apply keyword_rule_fails
  apply identifier_listed.spaced.bind identifier_wellBehaved.spaced
  intro name
  apply (hinit.seqLeft hinit' semicolon_listed).bind (hinit'.seqLeft semicolon_wellBehaved)
  intro init
  exact .pure _

theorem parameters_listed : parameters.FailsListed := by
  have hopen : (literal "(" *> trivia).FailsListed :=
    FailsListed.seqRight (.literal (by decide)) (.literal _) FailsCommitted.trivia.listed
  have hnames := identifier_fails.commitsListed.sepBy identifier_wellBehaved comma_commitsListed
    comma_wellBehaved
  exact hopen.between ((WellBehaved.literal _).seqRight .trivia) hnames.listed
    (identifier_wellBehaved.sepBy comma_wellBehaved) close_listed

theorem functionWith_fails (h : inner.Fails) :
    (functionWith inner).FailsAs (Opens (.literal "fn") "function_declaration") := by
  apply keyword_rule_fails
  apply identifier_listed.spaced.bind identifier_wellBehaved.spaced
  intro name
  apply parameters_listed.spaced.bind parameters_wellBehaved.spaced
  intro params
  apply (blockWith_listed h).spaced.bind (blockWith_wellBehaved h.wellBehaved).spaced
  intro body
  exact .pure _

/-- The failure of an expression statement that lacks nothing but its end. -/
def missingSemicolon (i n : Nat) : Failure :=
  { cause := .literal ";", offset := n, frames := [⟨"expression_statement", i⟩] }

/-- A statement that is an expression lacks the expression or the semicolon after it, if it does
not fail for good. -/
theorem expressionStmt_fails :
    expressionStmt.FailsAs fun _ i f =>
      (f.cause = .token "expression" ∧ f.offset = i) ∨
        i < f.offset ∧ f = missingSemicolon i f.offset := by
  intro s c f hc hf
  obtain ⟨g, hg, rfl⟩ := labelled_eq_failed.1 hf
  obtain hexpr | ⟨d, e, he, hsemi⟩ := seqLeft_eq_failed.1 (mapSpan_eq_failed.1 hg)
  · obtain ⟨hcom, hl⟩ | ⟨-, rfl⟩ := expression_fails hc hexpr
    · exact .inl ⟨hcom, hl.within _ _⟩
    · exact .inr ⟨rfl, .inl ⟨rfl, rfl⟩⟩
  · obtain ⟨-, ts, hl, -⟩ := expression_reads hc rfl he
    obtain ⟨hlt, hlen⟩ := hl.bounds hc
    have hle := Source.le_skip hlen
    rw [semicolon, spaced_apply] at hsemi
    obtain ⟨-, rfl⟩ := literal_eq_failed.1 hsemi
    exact .inr ⟨rfl, .inr ⟨Nat.lt_of_lt_of_le hlt hle, rfl⟩⟩

/-- The failure where no statement starts. -/
def noStatement (i : Nat) : Failure := { cause := .alternatives statementCauses, offset := i }

/-- A statement fails for good, or no statement starts where one is expected, or it is an expression
without a semicolon. -/
theorem statementWith_fails (h : inner.Fails) :
    (statementWith inner).FailsAs fun _ i f =>
      f = noStatement i ∨ i < f.offset ∧ f = missingSemicolon i f.offset :=
  FailsAs.choice_blames
    (.cons (Opens.blames ((blockWith_fails h).map _)) <|
      .cons (Opens.blames (conditionalWith_fails h)) <| .cons (Opens.blames (whileWith_fails h)) <|
      .cons (Opens.blames (loopWith_fails h)) <| .cons (Opens.blames breakLoop_fails) <|
      .cons (Opens.blames continueLoop_fails) <| .cons (Opens.blames returnValue_fails) <|
      .cons (Opens.blames letBinding_fails) <| .cons (Opens.blames constBinding_fails) <|
      .cons (Opens.blames (functionWith_fails h)) .nil)
    expressionStmt_fails (List.cons_ne_nil _ _)

theorem statementWith_listed (h : inner.Fails) : (statementWith inner).FailsListed := by
  apply (statementWith_fails h).listed
  rintro s i f (rfl | ⟨-, hf⟩)
  · exact .statement rfl
  · rw [hf]
    exact .mark rfl (by decide)

theorem InnerStmt.ofLevels_fails (n : Nat) : (InnerStmt.ofLevels n).Fails := by
  induction n with
  | zero =>
    have hdeep {α : Type} {U : Source → Nat → Failure → Prop} : (tooDeep : Parser α).FailsAs U :=
      tooDeep_committed.imp fun _ _ _ h => h.elim
    exact ⟨InnerStmt.ofLevels_wellBehaved 0, fun _ _ _ _ _ hok => (nomatch hok),
      tooDeep_committed.listed, hdeep⟩
  | succ n ih =>
    exact ⟨InnerStmt.ofLevels_wellBehaved (n + 1), (statementWith_consumes ih.wellBehaved).moves,
      statementWith_listed ih, conditionalWith_fails ih⟩

end Rules

end Grammar

end BrookSyntax
