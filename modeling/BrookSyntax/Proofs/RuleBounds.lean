import BrookSyntax.Proofs.Bounds

namespace BrookSyntax

namespace Source

variable {s : Source} {i n : Nat}

theorem stringFrom_within (hi : i ≤ s.length) :
    match s.stringFrom n i with
    | .ok (_, j) => i ≤ j ∧ j ≤ s.length
    | .error f => f.Within i s.length := by
  induction n generalizing i with
  | zero => exact .bare rfl (Nat.le_refl _) hi
  | succ n ih =>
    cases hu : s.unit? i with
    | none =>
      simp only [stringFrom, hu]
      exact .bare rfl (Nat.le_refl _) hi
    | some u =>
      have hlt := lt_length_of_unit? hu
      have hrest := ih (i := i + 1) hlt
      by_cases hq : u = CodeUnit.quote
      · simp only [stringFrom, hu, hq, ↓reduceIte]
        exact ⟨Nat.le_succ i, hlt⟩
      by_cases hb : u = CodeUnit.backslash
      · simp only [stringFrom, hu, hb, ↓reduceIte]
        cases hw : (s.unit? (i + 1)).bind escapeValue? with
        | none => exact .bare rfl (Nat.le_succ i) hlt
        | some w =>
          obtain ⟨v, hv, -⟩ := Option.bind_eq_some_iff.1 hw
          have hrest := ih (i := i + 2) (lt_length_of_unit? hv)
          cases hs : s.stringFrom n (i + 2) with
          | ok r =>
            rw [hs] at hrest
            exact ⟨by have := hrest.1; omega, hrest.2⟩
          | error f =>
            rw [hs] at hrest
            exact Failure.Within.mono hrest (by omega)
      · simp only [stringFrom, hu, hq, hb, ↓reduceIte]
        cases hs : s.stringFrom n (i + 1) with
        | ok r =>
          rw [hs] at hrest
          exact ⟨by have := hrest.1; omega, hrest.2⟩
        | error f =>
          rw [hs] at hrest
          exact Failure.Within.mono hrest (by omega)

end Source

namespace Grammar

open BrookSyntax.Parser

variable {α : Type}

theorem numeral_wellBehaved : numeral.WellBehaved := by
  apply WellBehaved.consumed
  apply ((WellBehaved.satisfy _ _).seqRight (.takeWhile _)).seqRight
  apply WellBehaved.optional
  exact ((WellBehaved.literal _).seqRight (.satisfy _ _)).seqRight (.takeWhile _)

theorem number_wellBehaved : number.WellBehaved := by
  intro s c hc
  have hr := numeral_wellBehaved s c hc
  rw [number]
  cases h : numeral s c with
  | failed f => rwa [h] at hr
  | ok d t =>
    rw [h] at hr
    dsimp only
    split
    · exact hr
    · exact WellBehaved.abort _ s c hc

theorem string_wellBehaved : string.WellBehaved := by
  intro s c hc
  rw [string, Cursor.peek?]
  split
  · next hq =>
    have hr := Source.stringFrom_within (n := s.length - c.offset) (Source.lt_length_of_unit? hq)
    cases h : s.stringFrom (s.length - c.offset) (c.offset + 1) with
    | ok r =>
      rw [h] at hr
      exact ⟨rfl, Nat.le_of_lt hr.1, hr.2⟩
    | error f =>
      rw [h] at hr
      exact Failure.Within.mono hr (Nat.le_succ _)
  · exact WellBehaved.fail _ s c hc

theorem constant_wellBehaved : constant.WellBehaved := by
  apply WellBehaved.choice
  simp only [List.forall_mem_cons, List.not_mem_nil, false_implies, implies_true, and_true]
  exact ⟨(WellBehaved.keyword _).mapSpan _, (WellBehaved.keyword _).mapSpan _,
    (WellBehaved.keyword _).mapSpan _⟩

theorem identifier_wellBehaved : identifier.WellBehaved := by
  have hw : word.WellBehaved :=
    ((WellBehaved.satisfy _ _).seqRight (.takeWhile _)).consumed
  intro s c hc
  have hr := hw s c hc
  rw [identifier]
  cases h : word s c with
  | failed f => rwa [h] at hr
  | ok d t =>
    rw [h] at hr
    dsimp only
    split
    · exact WellBehaved.fail _ s c hc
    · exact hr

theorem name_wellBehaved : name.WellBehaved := identifier_wellBehaved.mapSpan _

/-- The rules that expressions use further in stay within the source. -/
structure InnerExpr.WellBehaved (inner : InnerExpr) : Prop where
  assignment : inner.assignment.WellBehaved
  unary : inner.unary.WellBehaved

section Expressions

variable {inner : InnerExpr}

theorem comma_wellBehaved : comma.WellBehaved :=
  (WellBehaved.literal _).spaced.seqRight .trivia

theorem primary_wellBehaved (h : inner.WellBehaved) : (primary inner).WellBehaved := by
  have hp : (parenthesized inner).WellBehaved :=
    (WellBehaved.literal _).seqRight
      (WellBehaved.between .trivia h.assignment (WellBehaved.literal _).spaced).deeper.committed
  apply WellBehaved.choice
  simp only [List.forall_mem_cons, List.not_mem_nil, false_implies, implies_true, and_true]
  exact ⟨number_wellBehaved, string_wellBehaved, constant_wellBehaved, name_wellBehaved.map _, hp⟩

theorem arguments_wellBehaved (h : inner.WellBehaved) : (arguments inner).WellBehaved := by
  have hs := h.assignment.sepBy comma_wellBehaved
  exact (WellBehaved.literal _).seqRight
    (WellBehaved.between .trivia hs (WellBehaved.literal _).spaced).deeper.committed

theorem called_wellBehaved (h : inner.WellBehaved) : (called inner).WellBehaved := by
  apply (primary_wellBehaved h).bind
  intro head
  apply ((arguments_wellBehaved h).spaced.mapSpan _).many.bind
  intro calls
  exact .pure _

theorem unaryOp_wellBehaved : unaryOp.WellBehaved := by
  apply WellBehaved.choice
  intro p hp
  obtain ⟨op, -, rfl⟩ := List.mem_map.1 hp
  exact (WellBehaved.literal _).map _

theorem unary_wellBehaved (h : inner.WellBehaved) : (unary inner).WellBehaved := by
  apply WellBehaved.describedAs
  apply WellBehaved.choice
  simp only [List.forall_mem_cons, List.not_mem_nil, false_implies, implies_true, and_true]
  constructor
  · apply WellBehaved.mapSpan
    apply unaryOp_wellBehaved.bind
    intro op
    apply h.unary.deeper.spaced.committed.bind
    intro operand
    exact .pure _
  · exact called_wellBehaved h

theorem binaryOp_wellBehaved (ops : List BinaryOp) : (binaryOp ops).WellBehaved := by
  apply WellBehaved.choice
  intro p hp
  obtain ⟨op, -, rfl⟩ := List.mem_map.1 hp
  exact (WellBehaved.literal _).map _

theorem binary_wellBehaved (ops : List BinaryOp) {operand : Parser Expr}
    (h : operand.WellBehaved) : (binary ops operand).WellBehaved := by
  apply h.bind
  intro head
  refine WellBehaved.bind (WellBehaved.many ?_) fun rest => WellBehaved.pure _
  apply (binaryOp_wellBehaved ops).spaced.bind
  intro op
  apply h.spaced.committed.bind
  intro right
  exact .pure _

theorem foldr_binary_wellBehaved (levels : List (List BinaryOp)) {operand : Parser Expr}
    (h : operand.WellBehaved) : (levels.foldr binary operand).WellBehaved := by
  induction levels with
  | nil => exact h
  | cons ops levels ih => exact binary_wellBehaved ops ih

theorem assignment_wellBehaved (h : inner.WellBehaved) : (assignment inner).WellBehaved := by
  apply WellBehaved.describedAs
  apply WellBehaved.choice
  simp only [List.forall_mem_cons, List.not_mem_nil, false_implies, implies_true, and_true]
  constructor
  · apply WellBehaved.mapSpan
    apply name_wellBehaved.bind
    intro target
    apply ((WellBehaved.literalBefore _ _).spaced.seqRight
      h.assignment.deeper.spaced.committed).bind
    intro value
    exact .pure _
  · exact foldr_binary_wellBehaved _ (unary_wellBehaved h)

theorem InnerExpr.ofLevels_wellBehaved (n : Nat) : (InnerExpr.ofLevels n).WellBehaved := by
  induction n with
  | zero => exact ⟨.abort _, .abort _⟩
  | succ n ih => exact ⟨assignment_wellBehaved ih, unary_wellBehaved ih⟩

theorem expression_wellBehaved : expression.WellBehaved := by
  intro s c hc
  exact (assignment_wellBehaved (InnerExpr.ofLevels_wellBehaved c.room)).labelled _ s c hc

end Expressions

/-- The rules that statements use further in stay within the source. -/
structure InnerStmt.WellBehaved (inner : InnerStmt) : Prop where
  statement : inner.statement.WellBehaved
  conditional : inner.conditional.WellBehaved

section Statements

variable {inner : InnerStmt}

theorem semicolon_wellBehaved : semicolon.WellBehaved := (WellBehaved.literal _).spaced

theorem statementsWithin_wellBehaved {statement : Parser Stmt} {ending : Parser (Option α)}
    (hs : statement.WellBehaved) (he : ending.WellBehaved) (expected : Text) (n : Nat) :
    (statementsWithin statement ending expected n).WellBehaved := by
  induction n with
  | zero => exact .fail _
  | succ n ih =>
    apply WellBehaved.spaced
    intro s c hc
    have hr := he s c hc
    cases h : ending s c with
    | failed f =>
      simp only [h]
      rwa [h] at hr
    | ok d found =>
      rw [h] at hr
      cases found with
      | some a =>
        simp only [h]
        exact hr
      | none =>
        simp only [h]
        split
        · exact WellBehaved.fail _ s c hc
        · have hr := hs s c hc
          cases hst : statement s c with
          | failed f => rwa [hst] at hr
          | ok d head =>
            rw [hst] at hr
            have hrest := Result.Within.mono (ih s d hr.2.2) hr.1 hr.2.1
            dsimp only
            cases hm : statementsWithin statement ending expected n s d with
            | ok e tail => rwa [hm] at hrest
            | failed f => rwa [hm] at hrest

theorem statementsUntil_wellBehaved {statement : Parser Stmt} {terminator : Parser α}
    (hs : statement.WellBehaved) (ht : terminator.WellBehaved) (expected : Text) :
    (statementsUntil statement terminator expected).WellBehaved :=
  fun s c hc => statementsWithin_wellBehaved hs ht.attempt expected _ s c hc

theorem blockWith_consumes (h : inner.WellBehaved) : (blockWith inner).Consumes := by
  have hs := (statementsUntil_wellBehaved h.statement (.literal "\x7d") "\x7d").deeper.committed
  have hopen := WellBehaved.literal "\x7b"
  exact ⟨((hopen.seqRight hs).mapSpan _).labelled _,
    (((Moves.literal (by decide)).seqRight hopen hs).mapSpan _).labelled _⟩

theorem blockWith_wellBehaved (h : inner.WellBehaved) : (blockWith inner).WellBehaved :=
  (blockWith_consumes h).wellBehaved

theorem elseWith_wellBehaved (h : inner.WellBehaved) : (elseWith inner).WellBehaved := by
  apply (WellBehaved.keyword _).spaced.seqRight
  apply WellBehaved.committed
  apply WellBehaved.spaced
  apply WellBehaved.choice
  simp only [List.forall_mem_cons, List.not_mem_nil, false_implies, implies_true, and_true]
  constructor
  · exact blockWith_wellBehaved h
  · exact h.conditional.deeper.map _

theorem keyword_statement_consumes {p : Parser α} (label : Text) {word : Text} (hw : word ≠ [])
    (f : α → Span → Stmt) (hp : p.WellBehaved) :
    (labelled label (mapSpan (keyword word *> committed p) f)).Consumes :=
  ⟨(((WellBehaved.keyword _).seqRight hp.committed).mapSpan _).labelled _,
    (((Moves.keyword hw).seqRight (.keyword _) hp.committed).mapSpan _).labelled _⟩

theorem conditionalWith_consumes (h : inner.WellBehaved) :
    (conditionalWith inner).Consumes := by
  apply keyword_statement_consumes _ (by decide)
  apply expression_wellBehaved.spaced.bind
  intro condition
  apply (blockWith_wellBehaved h).spaced.bind
  intro thenBlock
  apply (elseWith_wellBehaved h).optional.bind
  intro elseBlock
  exact .pure _

theorem whileWith_consumes (h : inner.WellBehaved) : (whileWith inner).Consumes := by
  apply keyword_statement_consumes _ (by decide)
  apply expression_wellBehaved.spaced.bind
  intro condition
  apply (blockWith_wellBehaved h).spaced.bind
  intro body
  exact .pure _

theorem loopWith_consumes (h : inner.WellBehaved) : (loopWith inner).Consumes :=
  keyword_statement_consumes _ (by decide) _ (blockWith_wellBehaved h).spaced

theorem breakLoop_consumes : breakLoop.Consumes :=
  keyword_statement_consumes _ (by decide) _ semicolon_wellBehaved

theorem continueLoop_consumes : continueLoop.Consumes :=
  keyword_statement_consumes _ (by decide) _ semicolon_wellBehaved

theorem returnValue_consumes : returnValue.Consumes :=
  keyword_statement_consumes _ (by decide) _
    (expression_wellBehaved.spaced.optional.seqLeft semicolon_wellBehaved)

theorem letBinding_consumes : letBinding.Consumes := by
  apply keyword_statement_consumes _ (by decide)
  apply identifier_wellBehaved.spaced.bind
  intro name
  have hi : initializer.WellBehaved :=
    ((WellBehaved.literal _).spaced.seqRight expression_wellBehaved.spaced.committed).optional
  apply (hi.seqLeft semicolon_wellBehaved).bind
  intro init
  exact .pure _

theorem constBinding_consumes : constBinding.Consumes := by
  apply keyword_statement_consumes _ (by decide)
  apply identifier_wellBehaved.spaced.bind
  intro name
  have he := (WellBehaved.literal "=").spaced.seqRight expression_wellBehaved.spaced
  apply (he.seqLeft semicolon_wellBehaved).bind
  intro init
  exact .pure _

theorem parameters_wellBehaved : parameters.WellBehaved :=
  WellBehaved.between ((WellBehaved.literal _).seqRight .trivia)
    (identifier_wellBehaved.sepBy comma_wellBehaved) (WellBehaved.literal _).spaced

theorem functionWith_consumes (h : inner.WellBehaved) : (functionWith inner).Consumes := by
  apply keyword_statement_consumes _ (by decide)
  apply identifier_wellBehaved.spaced.bind
  intro name
  apply parameters_wellBehaved.spaced.bind
  intro params
  apply (blockWith_wellBehaved h).spaced.bind
  intro body
  exact .pure _

theorem expressionStmt_consumes : expressionStmt.Consumes := by
  refine ⟨((expression_wellBehaved.seqLeft semicolon_wellBehaved).mapSpan _).labelled _, ?_⟩
  refine Moves.labelled (Moves.mapSpan ?_ _) _
  intro s c d e hc hok
  obtain ⟨d', t, he, hsemi⟩ := seqLeft_eq_ok.1 hok
  obtain ⟨hle, hlen⟩ := expression_wellBehaved.advances hc he
  have hskip := Source.le_skip hlen
  have hlt : s.skip d'.offset < d.offset :=
    Moves.literal (by decide) (c := ⟨_, d'.depth⟩) (Source.skip_le hlen) hsemi
  omega

/-- Every statement starts with a mark or a keyword or ends with a semicolon, so it is not empty. -/
theorem statementWith_consumes (h : inner.WellBehaved) : (statementWith inner).Consumes := by
  apply Consumes.choice
  simp only [List.forall_mem_cons, List.not_mem_nil, false_implies, implies_true, and_true]
  refine ⟨?_, ?_, ?_, ?_, ?_, ?_, ?_, ?_, ?_, ?_, ?_⟩
  · exact (blockWith_consumes h).map _
  · exact conditionalWith_consumes h
  · exact whileWith_consumes h
  · exact loopWith_consumes h
  · exact breakLoop_consumes
  · exact continueLoop_consumes
  · exact returnValue_consumes
  · exact letBinding_consumes
  · exact constBinding_consumes
  · exact functionWith_consumes h
  · exact expressionStmt_consumes

theorem statementWith_wellBehaved (h : inner.WellBehaved) : (statementWith inner).WellBehaved :=
  (statementWith_consumes h).wellBehaved

theorem InnerStmt.ofLevels_wellBehaved (n : Nat) : (InnerStmt.ofLevels n).WellBehaved := by
  induction n with
  | zero => exact ⟨.abort _, .abort _⟩
  | succ n ih => exact ⟨statementWith_wellBehaved ih, (conditionalWith_consumes ih).wellBehaved⟩

theorem atLevel_wellBehaved {rule : InnerStmt → Parser α}
    (h : ∀ inner : InnerStmt, inner.WellBehaved → (rule inner).WellBehaved) :
    (atLevel rule).WellBehaved :=
  fun s c hc => h _ (InnerStmt.ofLevels_wellBehaved c.room) s c hc

theorem program_wellBehaved : program.WellBehaved := by
  have hs : statement.WellBehaved := atLevel_wellBehaved fun _ => statementWith_wellBehaved
  exact ((statementsUntil_wellBehaved hs .endOfInput _).mapSpan _).labelled _

end Statements

end Grammar

end BrookSyntax
