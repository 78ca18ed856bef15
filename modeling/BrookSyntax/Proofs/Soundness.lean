import BrookSyntax.Proofs.ExprSoundness

namespace BrookSyntax

open BrookSyntax.Parser Source

theorem DerivesNames.of_repeated {ts us : List Token} {word : Text} {words : List Text}
    (h : ∃ a, ts = [.name word a])
    (hs : Repeated (fun vs w => ∃ a ws, Token.mark "," a :: ws = vs ∧ ∃ b, ws = [.name w b])
      us words) : DerivesNames (ts ++ us) (word :: words) := by
  induction hs generalizing ts word with
  | nil =>
    obtain ⟨a, rfl⟩ := h
    exact .single word a
  | cons hr hs ih =>
    obtain ⟨a, rfl⟩ := h
    obtain ⟨b, ws, rfl, hw⟩ := hr
    exact .cons word a b (ih hw)

theorem DerivesParams.of_separated {ts : List Token} {words : List Text}
    (h : Separated (fun us w => ∃ a, us = [.name w a]) ts words) : DerivesParams ts words := by
  obtain ⟨rfl, rfl⟩ | ⟨us, vs, w, rest, rfl, rfl, hw, hs⟩ := h
  · exact .none
  · exact .some (.of_repeated hw hs)

namespace Grammar

variable {α : Type} {inner : InnerStmt} {n : Nat}

/-- The rules that statements use further in read what the grammar derives where one construct less
may be opened. -/
structure InnerStmt.Sound (inner : InnerStmt) (n : Nat) : Prop where
  statement : ∀ k, n = k + 1 → inner.statement.Reads k (DerivesStmt k)
  conditional : ∀ k, n = k + 1 → inner.conditional.Reads k fun ts stmt =>
    ∃ condition thenBlock elseBlock b, stmt = .conditional condition thenBlock elseBlock b ∧
      DerivesStmt k ts stmt

theorem statementsWithin_succ (statement : Parser Stmt) (ending : Parser (Option α))
    (expected : Text) (fuel : Nat) (s : Source) (c : Cursor) :
    statementsWithin statement ending expected (fuel + 1) s c =
      match ending s ⟨s.skip c.offset, c.depth⟩ with
      | .failed f => .failed f
      | .ok d (some _) => .ok d []
      | .ok _ none =>
        if (⟨s.skip c.offset, c.depth⟩ : Cursor).atEnd s then
          fail (.openBlock expected) s ⟨s.skip c.offset, c.depth⟩
        else
          match statement s ⟨s.skip c.offset, c.depth⟩ with
          | .failed f => .failed f
          | .ok d head =>
            match statementsWithin statement ending expected fuel s d with
            | .ok e tail => .ok e (head :: tail)
            | .failed f => .failed f := rfl

theorem statementsWithin_succ_eq_ok {statement : Parser Stmt} {ending : Parser (Option α)}
    {expected : Text} {fuel : Nat} {s : Source} {c d : Cursor} {stmts : List Stmt} :
    statementsWithin statement ending expected (fuel + 1) s c = .ok d stmts ↔
      (∃ a, ending s ⟨s.skip c.offset, c.depth⟩ = .ok d (some a) ∧ [] = stmts) ∨
        (∃ e, ending s ⟨s.skip c.offset, c.depth⟩ = .ok e none) ∧
          (⟨s.skip c.offset, c.depth⟩ : Cursor).atEnd s = false ∧
          ∃ e head tail, statement s ⟨s.skip c.offset, c.depth⟩ = .ok e head ∧
            statementsWithin statement ending expected fuel s e = .ok d tail ∧
            head :: tail = stmts := by
  rw [statementsWithin_succ]
  cases hend : ending s ⟨s.skip c.offset, c.depth⟩ with
  | failed f => simp
  | ok e found =>
    cases found with
    | some a => simp
    | none =>
      cases hat : (⟨s.skip c.offset, c.depth⟩ : Cursor).atEnd s with
      | true => simp [fail]
      | false =>
        cases hst : statement s ⟨s.skip c.offset, c.depth⟩ with
        | failed f => simp
        | ok e head =>
          cases htail : statementsWithin statement ending expected fuel s e with
          | failed f => simp [htail]
          | ok f tail =>
            simp only [htail, Bool.false_eq_true, ↓reduceIte, Result.ok.injEq, reduceCtorEq,
              and_false, false_and, exists_false, false_or, true_and]
            constructor
            · rintro ⟨rfl, rfl⟩
              exact ⟨⟨_, rfl, trivial⟩, e, head, tail, ⟨rfl, rfl⟩, htail, rfl⟩
            · rintro ⟨-, _, _, tail', ⟨rfl, rfl⟩, hok, rfl⟩
              rw [htail] at hok
              cases hok
              exact ⟨rfl, rfl⟩

/-- The look for the end fails, or the end is not here: the source has ended, the statement that is
here fails, or what follows it does. -/
theorem statementsWithin_succ_failed {statement : Parser Stmt} {ending : Parser (Option α)}
    {expected : Text} {fuel : Nat} {s : Source} {c : Cursor} {f : Failure}
    (h : statementsWithin statement ending expected (fuel + 1) s c = .failed f) :
    ending s ⟨s.skip c.offset, c.depth⟩ = .failed f ∨
      (∃ e, ending s ⟨s.skip c.offset, c.depth⟩ = .ok e none) ∧
        (s.length ≤ s.skip c.offset ∧
            f = { cause := .openBlock expected, offset := s.skip c.offset } ∨
          s.skip c.offset < s.length ∧ (statement s ⟨s.skip c.offset, c.depth⟩ = .failed f ∨
            ∃ e head, statement s ⟨s.skip c.offset, c.depth⟩ = .ok e head ∧
              statementsWithin statement ending expected fuel s e = .failed f)) := by
  rw [statementsWithin_succ] at h
  cases hend : ending s ⟨s.skip c.offset, c.depth⟩ with
  | failed g =>
    rw [hend] at h
    cases h
    exact .inl rfl
  | ok e found =>
    rw [hend] at h
    cases found with
    | some a => cases h
    | none =>
      refine .inr ⟨⟨e, rfl⟩, ?_⟩
      simp only [Cursor.atEnd, decide_eq_true_eq] at h
      split at h
      · next hat =>
        cases h
        exact .inl ⟨hat, rfl⟩
      next hat =>
      refine .inr ⟨Nat.lt_of_not_le hat, ?_⟩
      cases hst : statement s ⟨s.skip c.offset, c.depth⟩ with
      | failed g =>
        rw [hst] at h
        cases h
        exact .inl rfl
      | ok d head =>
        simp only [hst] at h
        cases htail : statementsWithin statement ending expected fuel s d with
        | ok d tail =>
          rw [htail] at h
          cases h
        | failed g =>
          rw [htail] at h
          cases h
          exact .inr ⟨d, head, rfl, htail⟩

/-- Statements are read up to a place after which, behind trivia, their end is found. -/
theorem statementsWithin_lexed {statement : Parser Stmt} {ending : Parser (Option α)}
    {expected : Text} {fuel : Nat} {s : Source} {c d : Cursor} {stmts : List Stmt}
    (h : statement.Reads n (DerivesStmt n)) (hc : c.offset ≤ s.length) (hn : c.room = n)
    (hok : statementsWithin statement ending expected fuel s c = .ok d stmts) :
    ∃ ts m a, s.LexedAfter c.offset ts m ∧ DerivesStmts n ts stmts ∧
      ending s ⟨s.skip m, c.depth⟩ = .ok d (some a) := by
  induction fuel generalizing c stmts with
  | zero => cases hok
  | succ fuel ih =>
    obtain ⟨a, ha, rfl⟩ | ⟨-, -, e, head, tail, hst, htail, rfl⟩ :=
      statementsWithin_succ_eq_ok.1 hok
    · exact ⟨[], c.offset, a, .inl ⟨rfl, rfl⟩, .nil n, ha⟩
    · obtain ⟨hd, ts, hl, hder⟩ := h (c := ⟨_, c.depth⟩) (skip_le hc) hn hst
      have hlen := (hl.bounds (skip_le hc)).2
      obtain ⟨us, m, a, hl', hs, hend⟩ := ih hlen ((Cursor.room_congr hd).trans hn) htail
      rw [show e.depth = c.depth from hd] at hend
      exact ⟨ts ++ us, m, a, (hl.after hc).append hl', .cons hder hs, hend⟩

theorem statementsUntil_lexed {statement : Parser Stmt} {terminator : Parser α}
    {expected : Text} {s : Source} {c d : Cursor} {stmts : List Stmt}
    (h : statement.Reads n (DerivesStmt n)) (hc : c.offset ≤ s.length) (hn : c.room = n)
    (hok : statementsUntil statement terminator expected s c = .ok d stmts) :
    ∃ ts m a, s.LexedAfter c.offset ts m ∧ DerivesStmts n ts stmts ∧
      terminator s ⟨s.skip m, c.depth⟩ = .ok d a := by
  obtain ⟨ts, m, a, hl, hs, hend⟩ := statementsWithin_lexed h hc hn hok
  exact ⟨ts, m, a, hl, hs, attempt_eq_ok_some.1 hend⟩

theorem blockBody_reads {statement : Parser Stmt} (h : statement.Reads n (DerivesStmt n)) :
    (statementsUntil statement (literal "\x7d") "\x7d").ReadsAfter n fun ts stmts =>
      ∃ us b, us ++ [.mark "\x7d" b] = ts ∧ DerivesStmts n us stmts := by
  intro s c d stmts hc hn hok
  obtain ⟨ts, m, t, hl, hs, hend⟩ := statementsUntil_lexed h hc hn hok
  have hclose := (Reads.literal (n := n) (m := "\x7d") (by decide)).spaced
  obtain ⟨hd, us, hl', b, rfl⟩ := hclose (c := ⟨m, c.depth⟩) (hl.bounds hc).2 hn hend
  exact ⟨hd, _, hl.append hl', ts, b, rfl, hs⟩

theorem blockWith_reads (h : inner.Sound n) : (blockWith inner).Reads n (DerivesBlock n) := by
  apply Reads.labelled
  have hopen := Reads.literal (n := n) (m := "\x7b") (by decide)
  have hbody := ReadsAfter.deeper fun k hk => blockBody_reads (h.statement k hk)
  apply ((hopen.seqRight hbody.committed).mapSpan _).imp
  rintro _ _ ⟨stmts, ⟨_, _, t, rfl, ⟨a, rfl⟩, k, rfl, us, b, rfl, hs⟩, rfl⟩
  exact .mk a b hs

theorem elseWith_reads (h : inner.Sound n) :
    (elseWith inner).ReadsAfter n fun ts body => DerivesElse n ts (some body) := by
  have hkeyword := (Reads.keyword (n := n) (w := "else") (by decide)).spaced
  have hbody : (choice [blockWith inner,
      (fun stmt => .mk [stmt] stmt.span) <$> deeper inner.conditional]).Reads n fun ts body =>
        ∀ a, DerivesElse n (.keyword "else" a :: ts) (some body) := by
    apply Reads.choice
    simp only [List.forall_mem_cons, List.not_mem_nil, false_implies, implies_true, and_true]
    constructor
    · apply (blockWith_reads h).imp
      intro ts body hb a
      exact .block a hb
    · apply ((Reads.deeper h.conditional).map _).imp
      rintro ts _ ⟨_, ⟨k, rfl, condition, thenBlock, elseBlock, b, rfl, hs⟩, rfl⟩ a
      exact .chained a hs
  apply (hkeyword.seqRight hbody.spaced.committed).imp
  rintro _ body ⟨_, us, t, rfl, ⟨a, rfl⟩, hb⟩
  exact hb a

theorem else_reads (h : inner.Sound n) : (optional (elseWith inner)).ReadsAfter n
    (DerivesElse n) := by
  apply (elseWith_reads h).optional.imp
  rintro ts _ (⟨body, hb, rfl⟩ | ⟨rfl, rfl⟩)
  · exact hb
  · exact .none n

theorem keyword_statement_reads {p : Parser α} {R : List Token → α → Prop} {w : Text}
    (hw : w ∈ keywords) (hp : p.ReadsAfter n R) (label : Text) (f : α → Span → Stmt) :
    (labelled label (mapSpan (keyword w *> committed p) f)).Reads n fun ts stmt =>
      ∃ a us v, .keyword w a :: us = ts ∧ R us v ∧
        f v (Token.extent (.keyword w a :: us)) = stmt := by
  apply Reads.labelled
  apply (((Reads.keyword hw).seqRight hp.committed).mapSpan f).imp
  rintro _ _ ⟨v, ⟨_, us, t, rfl, ⟨a, rfl⟩, hr⟩, rfl⟩
  exact ⟨a, us, v, rfl, hr, rfl⟩

theorem conditionalWith_reads (h : inner.Sound n) :
    (conditionalWith inner).Reads n fun ts stmt =>
      ∃ condition thenBlock elseBlock b, stmt = .conditional condition thenBlock elseBlock b ∧
        DerivesStmt n ts stmt := by
  have hbody := expression_reads.spaced.bind fun condition =>
    (blockWith_reads h).spaced.bind fun thenBlock =>
      (else_reads h).bind fun elseBlock => ReadsAfter.pure (condition, thenBlock, elseBlock)
  apply (keyword_statement_reads (by decide) hbody _ _).imp
  rintro _ _ ⟨a, _, _, rfl, ⟨us, _, condition, rfl, hc, vs, _, thenBlock, rfl, ht, ws, _,
    elseBlock, rfl, he, rfl, rfl⟩, rfl⟩
  rw [List.append_nil]
  exact ⟨condition, thenBlock, elseBlock, _, rfl, .conditional a hc ht he⟩

theorem whileWith_reads (h : inner.Sound n) : (whileWith inner).Reads n (DerivesStmt n) := by
  have hbody := expression_reads.spaced.bind fun condition =>
    (blockWith_reads h).spaced.bind fun body => ReadsAfter.pure (condition, body)
  apply (keyword_statement_reads (by decide) hbody _ _).imp
  rintro _ _ ⟨a, _, _, rfl, ⟨us, _, condition, rfl, hc, vs, _, body, rfl, hb, rfl, rfl⟩, rfl⟩
  rw [List.append_nil]
  exact .whileLoop a hc hb

theorem loopWith_reads (h : inner.Sound n) : (loopWith inner).Reads n (DerivesStmt n) := by
  apply (keyword_statement_reads (by decide) (blockWith_reads h).spaced _ _).imp
  rintro _ _ ⟨a, us, body, rfl, hb, rfl⟩
  exact .loop a hb

theorem semicolon_reads : semicolon.ReadsAfter n fun ts _ => ∃ a, ts = [.mark ";" a] :=
  (Reads.literal (by decide)).spaced

theorem breakLoop_reads : breakLoop.Reads n (DerivesStmt n) := by
  apply (keyword_statement_reads (by decide) semicolon_reads _ _).imp
  rintro _ _ ⟨a, _, t, rfl, ⟨b, rfl⟩, rfl⟩
  exact .breakLoop n a b

theorem continueLoop_reads : continueLoop.Reads n (DerivesStmt n) := by
  apply (keyword_statement_reads (by decide) semicolon_reads _ _).imp
  rintro _ _ ⟨a, _, t, rfl, ⟨b, rfl⟩, rfl⟩
  exact .continueLoop n a b

theorem returned_reads : (optional (spaced expression)).ReadsAfter n (DerivesOptional n) := by
  apply expression_reads.spaced.optional.imp
  rintro ts _ (⟨e, he, rfl⟩ | ⟨rfl, rfl⟩)
  · exact .some he
  · exact .none n

theorem returnValue_reads : returnValue.Reads n (DerivesStmt n) := by
  apply (keyword_statement_reads (by decide) (returned_reads.seqLeft semicolon_reads) _ _).imp
  rintro _ _ ⟨a, _, value, rfl, ⟨us, _, t, rfl, hv, b, rfl⟩, rfl⟩
  exact .returnValue a b hv

theorem bound_reads :
    (spaced (literal "=") *> spaced expression).ReadsAfter n fun ts e =>
      ∃ a us, .mark "=" a :: us = ts ∧ DerivesExpr n 1 us e := by
  intro s c d e hc hn hok
  obtain ⟨f, t, ht, he⟩ := seqRight_eq_ok.1 hok
  rw [spaced_apply] at ht
  obtain ⟨hat, rfl, -⟩ := (literal_eq_ok (c := ⟨_, c.depth⟩) (skip_le hc)).1 ht
  have hlen := add_length_le hat (skip_le hc)
  obtain ⟨hd, us, hl, hder⟩ := expression_reads.spaced (c := ⟨_, c.depth⟩) hlen hn he
  have htok := hder.tokenAt_before (skip_le hc) (by decide) hat (noTriviaAt_skip hc) hl
  have hsign := (LexedAt.single htok).after hc
  exact ⟨hd, _, hsign.append hl, _, us, rfl, hder⟩

theorem initializer_reads : initializer.ReadsAfter n (DerivesInit n) := by
  have hbound : (spaced (literal "=") *> committed (spaced expression)).ReadsAfter n fun ts e =>
      ∃ a us, .mark "=" a :: us = ts ∧ DerivesExpr n 1 us e := by
    intro s c d e hc hn hok
    obtain ⟨f, t, ht, he⟩ := seqRight_eq_ok.1 hok
    exact bound_reads hc hn (seqRight_eq_ok.2 ⟨f, t, ht, committed_eq_ok.1 he⟩)
  apply hbound.optional.imp
  rintro ts _ (⟨e, ⟨a, us, rfl, he⟩, rfl⟩ | ⟨rfl, rfl⟩)
  · exact .some a he
  · exact .none n

theorem letBinding_reads : letBinding.Reads n (DerivesStmt n) := by
  have hbody := Reads.identifier.spaced.bind fun word =>
    (initializer_reads.seqLeft semicolon_reads).bind fun init =>
      ReadsAfter.pure (n := n) (word, init)
  apply (keyword_statement_reads (by decide) hbody _ _).imp
  rintro _ _ ⟨a, _, _, rfl, ⟨_, _, word, rfl, ⟨b, rfl⟩, _, _, init, rfl,
    ⟨us, _, t, rfl, hi, c, rfl⟩, rfl, rfl⟩, rfl⟩
  rw [List.append_nil]
  exact .letBinding word a b c hi

theorem constBinding_reads : constBinding.Reads n (DerivesStmt n) := by
  have hbody := Reads.identifier.spaced.bind fun word =>
    (bound_reads.seqLeft semicolon_reads).bind fun init => ReadsAfter.pure (n := n) (word, init)
  apply (keyword_statement_reads (by decide) hbody _ _).imp
  rintro _ _ ⟨a, _, _, rfl, ⟨_, _, word, rfl, ⟨b, rfl⟩, _, _, init, rfl, ⟨_, _, t, rfl,
    ⟨c, us, rfl, he⟩, d, rfl⟩, rfl, rfl⟩, rfl⟩
  rw [List.append_nil]
  exact .constBinding word a b c d he

theorem parameters_reads : parameters.Reads n fun ts words =>
    ∃ a us b, ts = .mark "(" a :: (us ++ [.mark ")" b]) ∧ DerivesParams us words := by
  have hopen := Reads.literal (n := n) (m := "(") (by decide)
  have hbody := (Reads.identifier.sepBy (n := n) identifier_wellBehaved comma_wellBehaved).closed
    (m := ")") (by decide)
  intro s c d words hc hn hok
  obtain ⟨e, u, f, t, he, hw, ht⟩ := between_eq_ok.1 hok
  obtain ⟨g, t', hg, htr⟩ := seqRight_eq_ok.1 he
  have hok' := seqRight_eq_ok.2 ⟨g, t', hg, between_eq_ok.2 ⟨e, u, f, t, htr, hw, ht⟩⟩
  obtain ⟨hd, _, hl, _, _, _, rfl, ⟨a, rfl⟩, us, b, rfl, hs⟩ := (hopen.seqRight hbody) hc hn hok'
  exact ⟨hd, _, hl, a, us, b, rfl, .of_separated hs⟩

theorem functionWith_reads (h : inner.Sound n) : (functionWith inner).Reads n (DerivesStmt n) := by
  have hbody := Reads.identifier.spaced.bind fun word => parameters_reads.spaced.bind fun params =>
    (blockWith_reads h).spaced.bind fun body => ReadsAfter.pure (word, params, body)
  apply (keyword_statement_reads (by decide) hbody _ _).imp
  rintro _ _ ⟨a, _, _, rfl, ⟨_, _, word, rfl, ⟨b, rfl⟩, _, _, params, rfl, ⟨c, us, d, rfl, hp⟩,
    vs, _, body, rfl, hb, rfl, rfl⟩, rfl⟩
  rw [List.append_nil]
  simp only [List.cons_append, List.append_assoc]
  exact .function word a b c d hp hb

theorem expressionStmt_reads : expressionStmt.Reads n (DerivesStmt n) := by
  apply Reads.labelled
  apply ((expression_reads.seqLeft semicolon_reads).mapSpan _).imp
  rintro _ _ ⟨e, ⟨us, _, t, rfl, he, a, rfl⟩, rfl⟩
  exact .expression a he

theorem statementWith_reads (h : inner.Sound n) :
    (statementWith inner).Reads n (DerivesStmt n) := by
  apply Reads.choice
  simp only [List.forall_mem_cons, List.not_mem_nil, false_implies, implies_true, and_true]
  refine ⟨?_, ?_, whileWith_reads h, loopWith_reads h, breakLoop_reads, continueLoop_reads,
    returnValue_reads, letBinding_reads, constBinding_reads, functionWith_reads h,
    expressionStmt_reads⟩
  · apply ((blockWith_reads h).map _).imp
    rintro ts _ ⟨body, hb, rfl⟩
    exact .block hb
  · apply (conditionalWith_reads h).imp
    rintro ts stmt ⟨condition, thenBlock, elseBlock, b, -, hs⟩
    exact hs

theorem InnerStmt.ofLevels_sound (n : Nat) : (InnerStmt.ofLevels n).Sound n := by
  induction n with
  | zero => exact ⟨fun k hk => (nomatch hk), fun k hk => (nomatch hk)⟩
  | succ n ih =>
    constructor
    · intro k hk
      cases hk
      exact statementWith_reads ih
    · intro k hk
      cases hk
      exact conditionalWith_reads ih

theorem atLevel_reads {rule : InnerStmt → Parser α} {R : Nat → List Token → α → Prop}
    (h : ∀ n, (rule (.ofLevels n)).Reads n (R n)) : (atLevel rule).Reads n (R n) := by
  intro s c d a hc hn hok
  rw [atLevel, hn] at hok
  exact h n hc hn hok

theorem statement_reads : statement.Reads n (DerivesStmt n) :=
  atLevel_reads fun n => statementWith_reads (InnerStmt.ofLevels_sound n)

theorem block_reads : block.Reads n (DerivesBlock n) :=
  atLevel_reads fun n => blockWith_reads (InnerStmt.ofLevels_sound n)

theorem program_lexed {s : Source} {c d : Cursor} {p : Program} (hc : c.offset ≤ s.length)
    (hok : program s c = .ok d p) :
    ∃ ts m, s.LexedAfter c.offset ts m ∧ s.TriviaAt m d.offset ∧
      DerivesStmts c.room ts p.statements ∧ d.offset = s.length ∧ p.span = c.spanTo d s := by
  obtain ⟨stmts, hstmts, rfl⟩ := mapSpan_eq_ok.1 (labelled_eq_ok.1 hok)
  obtain ⟨ts, m, u, hl, hs, hend⟩ := statementsUntil_lexed statement_reads hc rfl hstmts
  have hm := (hl.bounds hc).2
  have hle := skip_le hm
  have htrivia := triviaAt_skip hm
  rw [endOfInput] at hend
  split at hend
  · next hat =>
    cases hend
    have hge : s.length ≤ s.skip m := by simpa only [Cursor.atEnd, decide_eq_true_eq] using hat
    exact ⟨ts, m, hl, htrivia, hs, Nat.le_antisymm hle hge, rfl⟩
  · cases hend

/-- What is accepted between two cursors is derived by the grammar with the tree that is given,
spans included: a program from statements that reach the end of the source, a statement, a block or
an expression from tokens that start and end at the cursors. -/
theorem accepted_derives (s : Source) (c d : Cursor) (hc : c.offset ≤ s.length) :
    (∀ p, program s c = .ok d p →
      ∃ ts m, s.LexedAfter c.offset ts m ∧ s.TriviaAt m d.offset ∧
        DerivesStmts c.room ts p.statements ∧ d.offset = s.length ∧ p.span = c.spanTo d s) ∧
    (∀ stmt, statement s c = .ok d stmt →
      ∃ ts, s.LexedAt c.offset ts d.offset ∧ DerivesStmt c.room ts stmt) ∧
    (∀ body, block s c = .ok d body →
      ∃ ts, s.LexedAt c.offset ts d.offset ∧ DerivesBlock c.room ts body) ∧
    (∀ e, expression s c = .ok d e →
      ∃ ts, s.LexedAt c.offset ts d.offset ∧ DerivesExpr c.room 1 ts e) := by
  refine ⟨?_, ?_, ?_, ?_⟩
  · intro p hok
    exact program_lexed hc hok
  · intro stmt hok
    exact (statement_reads hc rfl hok).2
  · intro body hok
    exact (block_reads hc rfl hok).2
  · intro e hok
    exact (expression_reads hc rfl hok).2

theorem accepted_derives_assignment :
    ∃ p ts m, program (.ofText "x = !f(y, 1.5) ; // z") ⟨0, 0⟩ = .ok ⟨21, 0⟩ p ∧
      (Source.ofText "x = !f(y, 1.5) ; // z").LexedAfter 0 ts m ∧
      (Source.ofText "x = !f(y, 1.5) ; // z").TriviaAt m 21 ∧
      DerivesStmts 128 ts p.statements := by
  have hstop : (program (.ofText "x = !f(y, 1.5) ; // z") ⟨0, 0⟩).stop? = some ⟨21, 0⟩ := by
    decide +kernel
  obtain ⟨p, hp⟩ := Result.ok_of_stop hstop
  obtain ⟨ts, m, hl, ht, hs, -, -⟩ := (accepted_derives _ _ _ (Nat.zero_le _)).1 p hp
  exact ⟨p, ts, m, hp, hl, ht, hs⟩

end Grammar

end BrookSyntax
