import BrookSyntax.Proofs.FirstToken
import BrookSyntax.Proofs.ExprCommitment
import BrookSyntax.Proofs.FailureCatalogue

namespace BrookSyntax

/-- The labels of the constructs that start with a keyword, with their keywords. -/
def keywordLabels : List (Text × Text) :=
  [("if_statement", "if"), ("while_statement", "while"), ("loop_statement", "loop"),
    ("break_statement", "break"), ("continue_statement", "continue"),
    ("return_statement", "return"), ("let_statement", "let"), ("const_statement", "const"),
    ("function_declaration", "fn")]

/-- The frame is of a construct inside a program around others, and the text that the construct
starts with stands at its offset. -/
structure Frame.Stands (s : Source) (frame : Frame) : Prop where
  notProgram : frame.label ≠ "program"
  notExpression : frame.label ≠ "expression"
  keyword : ∀ word, (frame.label, word) ∈ keywordLabels → s.hasWordAt frame.offset word = true
  brace : frame.label = "block" → s.hasAt frame.offset "\x7b" = true

/-- The frame is of an expression, or of a block that is missing where it should start. -/
def Failure.StopsIn (f : Failure) (frame : Frame) : Prop :=
  frame.label = "expression" ∨
    frame.label = "block" ∧ f.cause = .literal "\x7b" ∧ f.offset = frame.offset

/-- All constructs of the failure stand where it says, but that the innermost one may be where it
stopped. -/
structure Failure.Placed (s : Source) (f : Failure) : Prop where
  innermost : ∀ frame, f.innermost? = some frame → frame.Stands s ∨ f.StopsIn frame
  around : ∀ frame ∈ f.frames.tail, frame.Stands s

/-- The frames of a program's failure. The outermost one, and no other, is that of the program; only
the innermost one may be of an expression; the keyword of a construct stands where its frame says,
and so does the brace of a block, unless the block is the innermost construct and its brace is what
is missing there. -/
structure Failure.Breadcrumb (s : Source) (start : Nat) (f : Failure) : Prop where
  program : ∃ frames : List Frame, f.frames = frames ++ [⟨"program", start⟩] ∧
    ∀ frame ∈ frames, frame.label ≠ "program"
  expression : ∀ (k : Nat) (frame : Frame), f.frames[k]? = some frame →
    frame.label = "expression" → k = 0
  keyword : ∀ frame ∈ f.frames, ∀ word, (frame.label, word) ∈ keywordLabels →
    s.hasWordAt frame.offset word = true
  block : ∀ (k : Nat) (frame : Frame), f.frames[k]? = some frame → frame.label = "block" →
    s.hasAt frame.offset "\x7b" = true ∨
      k = 0 ∧ f.cause = .literal "\x7b" ∧ f.offset = frame.offset

theorem Frame.Stands.of_keyword {s : Source} {label word : Text} {i : Nat}
    (h : (label, word) ∈ keywordLabels) (hat : s.hasWordAt i word = true) :
    (⟨label, i⟩ : Frame).Stands s := by
  have hlabel : label ∈ keywordLabels.map Prod.fst := List.mem_map_of_mem h
  have hother : ∀ l ∈ keywordLabels.map Prod.fst,
      l ≠ "program" ∧ l ≠ "expression" ∧ l ≠ "block" := by decide
  have hone : ∀ a ∈ keywordLabels, ∀ b ∈ keywordLabels, a.1 = b.1 → a.2 = b.2 := by decide
  obtain ⟨hprogram, hexpression, hblock⟩ := hother label hlabel
  refine ⟨hprogram, hexpression, fun other hmem => ?_, fun hl => absurd hl hblock⟩
  rwa [show other = word from hone _ hmem _ h rfl]

theorem Frame.Stands.of_label {s : Source} {label : Text} {i : Nat}
    (h : label ∉ (["program", "expression"] : List Text) ++ keywordLabels.map Prod.fst)
    (hbrace : label = "block" → s.hasAt i "\x7b" = true) : (⟨label, i⟩ : Frame).Stands s := by
  simp only [List.mem_append, List.mem_cons, List.not_mem_nil, or_false, not_or] at h
  obtain ⟨⟨hprogram, hexpression⟩, hother⟩ := h
  exact ⟨hprogram, hexpression, fun _ hmem => absurd (List.mem_map_of_mem hmem) hother, hbrace⟩

theorem Frame.Stands.block {s : Source} {i : Nat} (hat : s.hasAt i "\x7b" = true) :
    (⟨"block", i⟩ : Frame).Stands s :=
  .of_label (by decide) fun _ => hat

theorem Frame.Stands.expressionStmt {s : Source} {i : Nat} :
    (⟨"expression_statement", i⟩ : Frame).Stands s :=
  .of_label (by decide) fun h => absurd h (by decide)

namespace Failure

variable {s : Source} {f : Failure}

theorem Placed.of_frameless (h : f.frames = []) : f.Placed s where
  innermost := by simp [innermost?, h]
  around := by simp [h]

theorem Placed.asCommitted (h : f.Placed s) : f.asCommitted.Placed s := ⟨h.innermost, h.around⟩

theorem Placed.of_stop {label : Text} {i : Nat} (h : f.frames = [])
    (hstop : (⟨label, i⟩ : Frame).Stands s ∨ f.StopsIn ⟨label, i⟩) :
    (f.within label i).Placed s where
  innermost := by
    rintro frame hframe
    rw [innermost?, within, h] at hframe
    cases hframe
    exact hstop
  around := by simp [within, h]

theorem Placed.within {label : Text} {i : Nat} (h : f.Placed s)
    (hframe : (⟨label, i⟩ : Frame).Stands s) : (f.within label i).Placed s := by
  cases hframes : f.frames with
  | nil => exact .of_stop hframes (.inl hframe)
  | cons inner frames =>
    have hinner : f.innermost? = some inner := by rw [innermost?, hframes, List.head?_cons]
    constructor
    · intro frame hhead
      rw [innermost?_within hinner] at hhead
      cases hhead
      exact h.innermost inner hinner
    · have haround := h.around
      rw [hframes, List.tail_cons] at haround
      rw [Failure.within, hframes, List.cons_append, List.tail_cons]
      exact List.forall_mem_append.2 ⟨haround, List.forall_mem_singleton.2 hframe⟩

theorem Placed.of_getElem? {k : Nat} {frame : Frame} (h : f.Placed s)
    (hk : f.frames[k]? = some frame) : frame.Stands s ∨ k = 0 ∧ f.StopsIn frame := by
  cases k with
  | zero =>
    rw [← List.head?_eq_getElem?] at hk
    exact (h.innermost frame hk).imp_right fun hstop => ⟨rfl, hstop⟩
  | succ k =>
    rw [← List.getElem?_tail] at hk
    exact .inl (h.around frame (List.mem_of_getElem? hk))

theorem Placed.of_mem {frame : Frame} (h : f.Placed s) (hmem : frame ∈ f.frames) :
    frame.Stands s ∨ f.StopsIn frame := by
  obtain ⟨k, hk⟩ := List.getElem?_of_mem hmem
  exact (h.of_getElem? hk).imp_right And.right

theorem StopsIn.not_keyword {frame : Frame} (h : f.StopsIn frame) :
    frame.label ∉ keywordLabels.map Prod.fst := by
  obtain h | ⟨h, -⟩ := h <;>
  · rw [h]
    decide

theorem StopsIn.not_program {frame : Frame} (h : f.StopsIn frame) : frame.label ≠ "program" := by
  obtain h | ⟨h, -⟩ := h <;>
  · rw [h]
    decide

theorem getElem?_within {label : Text} {i k : Nat} {frame : Frame}
    (h : (f.within label i).frames[k]? = some frame) :
    f.frames[k]? = some frame ∨ frame = ⟨label, i⟩ := by
  rw [within, List.getElem?_append] at h
  split at h
  · exact .inl h
  · exact .inr (List.mem_singleton.1 (List.mem_of_getElem? h))

theorem Placed.breadcrumb (h : f.Placed s) (start : Nat) :
    (f.within "program" start).Breadcrumb s start where
  program := by
    refine ⟨f.frames, rfl, fun frame hmem => ?_⟩
    obtain hstands | hstop := h.of_mem hmem
    · exact hstands.notProgram
    · exact hstop.not_program
  expression := by
    rintro k frame hk hlabel
    obtain hk | rfl := getElem?_within hk
    · obtain hstands | ⟨h0, -⟩ := h.of_getElem? hk
      · exact absurd hlabel hstands.notExpression
      · exact h0
    · exact absurd hlabel (show ("program" : Text) ≠ "expression" by decide)
  keyword := by
    intro frame hmem word hword
    have hlabel : frame.label ∈ keywordLabels.map Prod.fst := List.mem_map_of_mem hword
    obtain hmem | hmem := List.mem_append.1 hmem
    · obtain hstands | hstop := h.of_mem hmem
      · exact hstands.keyword word hword
      · exact absurd hlabel hstop.not_keyword
    · obtain rfl := List.mem_singleton.1 hmem
      exact absurd hlabel (show ("program" : Text) ∉ keywordLabels.map Prod.fst by decide)
  block := by
    rintro k frame hk hlabel
    obtain hk | rfl := getElem?_within hk
    · obtain hstands | ⟨h0, hstop⟩ := h.of_getElem? hk
      · exact .inl (hstands.brace hlabel)
      · obtain hexpr | ⟨-, hbrace⟩ := hstop
        · rw [hlabel] at hexpr
          exact absurd hexpr (by decide)
        · exact .inr ⟨h0, hbrace⟩
    · exact absurd hlabel (show ("program" : Text) ≠ "block" by decide)

end Failure

/-- The frames of a failed result. -/
def Result.frames {α : Type} : Result α → List Frame
  | .ok _ _ => []
  | .failed f => f.frames

namespace Parser

variable {α β : Type}

/-- The constructs of all failures of the parser are where the failures say. -/
def FailsPlaced (p : Parser α) : Prop :=
  ∀ ⦃s : Source⦄ ⦃c : Cursor⦄ ⦃f : Failure⦄, c.offset ≤ s.length → p s c = .failed f → f.Placed s

/-- The constructs of all committed failures of the parser are where the failures say. -/
def CommitsPlaced (p : Parser α) : Prop :=
  ∀ ⦃s : Source⦄ ⦃c : Cursor⦄ ⦃f : Failure⦄, c.offset ≤ s.length → p s c = .failed f →
    f.committed = true → f.Placed s

/-- No failure of the parser has frames. -/
abbrev FailsFrameless (p : Parser α) : Prop := p.FailsWith fun f => f.frames = []

variable {p : Parser α}

theorem FailsWith.placed (hp : p.FailsFrameless) : p.FailsPlaced :=
  fun _ _ _ hc hf => .of_frameless (hp hc hf)

theorem FailsFrameless.literal (t : Text) : (literal t).FailsFrameless := by
  intro s c f _ hf
  obtain ⟨-, rfl⟩ := literal_eq_failed.1 hf
  rfl

theorem FailsFrameless.keyword (word : Text) : (keyword word).FailsFrameless := by
  intro s c f _ hf
  obtain ⟨-, rfl⟩ := literalBefore_eq_failed.1 hf
  rfl

theorem FailsPlaced.pure (a : α) : (pure a : Parser α).FailsPlaced := fun _ _ _ _ hf => nomatch hf

theorem FailsPlaced.bind {g : α → Parser β} (hp : p.FailsPlaced) (hw : p.WellBehaved)
    (hg : ∀ a, (g a).FailsPlaced) : (p >>= g).FailsPlaced := by
  intro s c f hc hf
  obtain hf | ⟨d, a, ha, hf⟩ := bind_eq_failed.1 hf
  · exact hp hc hf
  · exact hg a (hw.advances hc ha).2 hf

theorem FailsPlaced.seqRight {q : Parser β} (hp : p.FailsPlaced) (hw : p.WellBehaved)
    (hq : q.FailsPlaced) : (p *> q).FailsPlaced := by
  intro s c f hc hf
  exact hp.bind hw (fun _ => hq) hc hf

theorem FailsPlaced.seqLeft {q : Parser β} (hp : p.FailsPlaced) (hw : p.WellBehaved)
    (hq : q.FailsPlaced) : (p <* q).FailsPlaced := by
  intro s c f hc hf
  obtain hf | ⟨d, a, ha, hf⟩ := seqLeft_eq_failed.1 hf
  · exact hp hc hf
  · exact hq (hw.advances hc ha).2 hf

theorem FailsPlaced.trivia : trivia.FailsPlaced := fun _ _ _ _ hf => nomatch hf

theorem FailsPlaced.spaced (hp : p.FailsPlaced) : (spaced p).FailsPlaced :=
  FailsPlaced.trivia.seqRight .trivia hp

theorem FailsPlaced.optional (hp : p.FailsPlaced) : (optional p).FailsPlaced :=
  fun _ _ _ hc hf => hp hc (optional_eq_failed.1 hf).1

theorem FailsPlaced.committed (hp : p.FailsPlaced) : (committed p).FailsPlaced := by
  intro s c f hc hf
  obtain ⟨g, hg, rfl⟩ := committed_eq_failed.1 hf
  exact (hp hc hg).asCommitted

theorem FailsPlaced.deeper (hp : p.FailsPlaced) : (deeper p).FailsPlaced := by
  intro s c f hc hf
  obtain ⟨-, hf⟩ | ⟨-, hf⟩ := deeper_eq_failed.1 hf
  · cases hf
    exact .of_frameless rfl
  · exact hp (c := ⟨c.offset, c.depth + 1⟩) hc hf

theorem CommitsPlaced.map (hp : p.CommitsPlaced) (g : α → β) : (g <$> p).CommitsPlaced :=
  fun _ _ _ hc hf => hp hc (map_eq_failed.1 hf)

theorem CommitsPlaced.deeper (hp : p.CommitsPlaced) : (deeper p).CommitsPlaced := by
  intro s c f hc hf hcom
  obtain ⟨-, hf⟩ | ⟨-, hf⟩ := deeper_eq_failed.1 hf
  · cases hf
    exact .of_frameless rfl
  · exact hp (c := ⟨c.offset, c.depth + 1⟩) hc hf hcom

/-- A choice that may be given up again is placed if that failure of it is. -/
theorem FailsPlaced.choice {ps : List (Parser α)} {U : Source → Nat → Failure → Prop}
    (h : ∀ p ∈ ps, p.CommitsPlaced) (hopen : (choice ps).FailsAs U)
    (hU : ∀ s i f, U s i f → f.Placed s) : (choice ps).FailsPlaced := by
  intro s c f hc hf
  cases hcom : f.committed with
  | false => exact hU s c.offset f (hopen.of_open hc ⟨hf, hcom⟩)
  | true =>
    obtain ⟨p, hp, hf, -⟩ | ⟨fs, hfs, rfl⟩ := choice_eq_failed hf
    · exact h p hp hc hf hcom
    · rw [merge_committed (List.Forall₂.forall_mem_right hfs fun _ _ _ h => h.2)] at hcom
      cases hcom

end Parser

namespace Grammar

open BrookSyntax.Parser

variable {α β : Type}

theorem expression_placed : expression.FailsPlaced := by
  intro s c f hc hf
  obtain ⟨g, hg, rfl⟩ := labelled_eq_failed.1 hf
  have hin := (InnerExpr.ofLevels_failsInside (c.room + 1)).assignment hc hg
  exact .of_stop hin.frames (.inr (.inl rfl))

theorem semicolon_placed : semicolon.FailsPlaced := (FailsFrameless.literal ";").placed.spaced

theorem identifier_frameless : identifier.FailsFrameless := by
  intro s c f hc hf
  have hcom : f.committed = false := name_neverCommits (mapSpan_eq_failed.2 hf)
  obtain rfl := identifier_fails.of_open hc ⟨hf, hcom⟩
  rfl

theorem parameters_placed : parameters.FailsPlaced := by
  have hopen := (FailsFrameless.literal "(").seqRight (.literal _) .trivia
  have hcomma : comma.FailsFrameless :=
    (FailsFrameless.literal ",").spaced.seqRight (WellBehaved.literal _).spaced .trivia
  have hnames := identifier_frameless.commitsWith.sepBy identifier_wellBehaved hcomma.commitsWith
    comma_wellBehaved
  exact (hopen.between ((WellBehaved.literal _).seqRight .trivia) hnames
    (identifier_wellBehaved.sepBy comma_wellBehaved) (FailsFrameless.literal ")").spaced).placed

/-- A statement is given up only where its keyword does not stand. -/
theorem keyword_rule_placed {p : Parser α} {label word : Text}
    (hlabel : (label, word) ∈ keywordLabels) (hp : p.FailsPlaced) (g : α → Span → β) :
    (labelled label (mapSpan (keyword word *> committed p) g)).CommitsPlaced := by
  intro s c f hc hf hcom
  cases hat : s.hasWordAt c.offset word with
  | false =>
    have hword : keyword word s c = _ := literalBefore_eq_failed.2 ⟨hat, rfl⟩
    rw [not_started hword] at hf
    cases hf
    cases hcom
  | true =>
    have hrule := (FailsFrameless.keyword word).placed.seqRight (.keyword _) hp.committed
    obtain ⟨e, he, rfl⟩ := labelled_eq_failed.1 hf
    exact (hrule hc (mapSpan_eq_failed.1 he)).within (.of_keyword hlabel hat)

/-- The rules that statements use further in have their constructs in place. -/
structure InnerStmt.Placed (inner : InnerStmt) : Prop where
  statement : inner.statement.FailsPlaced
  conditional : inner.conditional.CommitsPlaced

section Rules

variable {inner : InnerStmt}

theorem statementsUntil_placed {statement : Parser Stmt} (terminator : Parser α) (expected : Text)
    (h : statement.FailsPlaced) (hw : statement.Consumes) :
    (statementsUntil statement terminator expected).FailsPlaced := by
  intro s c f hc hf
  obtain ⟨d, -, hd, -, ⟨-, rfl⟩ | ⟨-, hst⟩⟩ :=
    statementsWithin_failed hw.wellBehaved hw.moves hc (by omega) hf
  · exact .of_frameless rfl
  · exact h hd hst

/-- A block has begun, or its brace is what is missing. -/
theorem blockWith_placed (h : inner.Placed) (hfail : inner.Fails) :
    (blockWith inner).FailsPlaced := by
  intro s c f hc hf
  obtain ⟨g, hg, rfl⟩ := labelled_eq_failed.1 hf
  cases hat : s.hasAt c.offset "\x7b" with
  | false =>
    have hopen := literal_eq_failed.2 ⟨hat, rfl⟩
    cases (mapSpan_eq_failed.1 hg).symm.trans (seqRight_eq_failed.2 (.inl hopen))
    exact .of_stop rfl (.inr (.inr ⟨rfl, rfl, rfl⟩))
  | true =>
    have hbody := statementsUntil_placed (literal "\x7d") "\x7d" h.statement
      ⟨hfail.wellBehaved.statement, hfail.moves⟩
    have hopen := (FailsFrameless.literal "\x7b").placed
    have hrule := hopen.seqRight (.literal _) hbody.deeper.committed
    exact (hrule hc (mapSpan_eq_failed.1 hg)).within (.block hat)

theorem elseWith_placed (h : inner.Placed) (hfail : inner.Fails) :
    (elseWith inner).FailsPlaced := by
  have hbranch : (choice [blockWith inner,
      (fun stmt => Block.mk [stmt] stmt.span) <$> deeper inner.conditional]).FailsPlaced := by
    refine .choice ?_ (elseBranch_fails hfail) ?_
    · simp only [List.forall_mem_cons, List.not_mem_nil, false_implies, implies_true, and_true]
      exact ⟨fun _ _ _ hc hf _ => blockWith_placed h hfail hc hf, h.conditional.deeper.map _⟩
    · rintro s i f rfl
      exact .of_frameless rfl
  exact (FailsFrameless.keyword "else").placed.spaced.seqRight (WellBehaved.keyword _).spaced
    hbranch.spaced.committed

theorem conditionalWith_placed (h : inner.Placed) (hfail : inner.Fails) :
    (conditionalWith inner).CommitsPlaced := by
  apply keyword_rule_placed (by decide)
  apply expression_placed.spaced.bind expression_wellBehaved.spaced
  intro condition
  apply (blockWith_placed h hfail).spaced.bind (blockWith_wellBehaved hfail.wellBehaved).spaced
  intro thenBlock
  apply (elseWith_placed h hfail).optional.bind (elseWith_wellBehaved hfail.wellBehaved).optional
  intro elseBlock
  exact .pure _

theorem whileWith_placed (h : inner.Placed) (hfail : inner.Fails) :
    (whileWith inner).CommitsPlaced := by
  apply keyword_rule_placed (by decide)
  apply expression_placed.spaced.bind expression_wellBehaved.spaced
  intro condition
  apply (blockWith_placed h hfail).spaced.bind (blockWith_wellBehaved hfail.wellBehaved).spaced
  intro body
  exact .pure _

theorem loopWith_placed (h : inner.Placed) (hfail : inner.Fails) :
    (loopWith inner).CommitsPlaced :=
  keyword_rule_placed (by decide) (blockWith_placed h hfail).spaced _

theorem breakLoop_placed : breakLoop.CommitsPlaced :=
  keyword_rule_placed (by decide) semicolon_placed _

theorem continueLoop_placed : continueLoop.CommitsPlaced :=
  keyword_rule_placed (by decide) semicolon_placed _

theorem returnValue_placed : returnValue.CommitsPlaced :=
  keyword_rule_placed (by decide) (expression_placed.spaced.optional.seqLeft
    expression_wellBehaved.spaced.optional semicolon_placed) _

theorem letBinding_placed : letBinding.CommitsPlaced := by
  have hsign := (WellBehaved.literal "=").spaced
  have hvalue := expression_wellBehaved.spaced.committed
  have hinit : initializer.FailsPlaced :=
    ((FailsFrameless.literal "=").placed.spaced.seqRight hsign
      expression_placed.spaced.committed).optional
  have hinit' : initializer.WellBehaved := (hsign.seqRight hvalue).optional
  apply keyword_rule_placed (by decide)
  apply identifier_frameless.placed.spaced.bind identifier_wellBehaved.spaced
  intro name
  apply (hinit.seqLeft hinit' semicolon_placed).bind (hinit'.seqLeft semicolon_wellBehaved)
  intro init
  exact .pure _

theorem constBinding_placed : constBinding.CommitsPlaced := by
  have hinit := (FailsFrameless.literal "=").placed.spaced.seqRight (WellBehaved.literal _).spaced
    expression_placed.spaced
  have hinit' := (WellBehaved.literal "=").spaced.seqRight expression_wellBehaved.spaced
  apply keyword_rule_placed (by decide)
  apply identifier_frameless.placed.spaced.bind identifier_wellBehaved.spaced
  intro name
  apply (hinit.seqLeft hinit' semicolon_placed).bind (hinit'.seqLeft semicolon_wellBehaved)
  intro init
  exact .pure _

theorem functionWith_placed (h : inner.Placed) (hfail : inner.Fails) :
    (functionWith inner).CommitsPlaced := by
  apply keyword_rule_placed (by decide)
  apply identifier_frameless.placed.spaced.bind identifier_wellBehaved.spaced
  intro name
  apply parameters_placed.spaced.bind parameters_wellBehaved.spaced
  intro params
  apply (blockWith_placed h hfail).spaced.bind (blockWith_wellBehaved hfail.wellBehaved).spaced
  intro body
  exact .pure _

theorem expressionStmt_placed : expressionStmt.FailsPlaced := by
  intro s c f hc hf
  obtain ⟨g, hg, rfl⟩ := labelled_eq_failed.1 hf
  have hrule := expression_placed.seqLeft expression_wellBehaved semicolon_placed
  exact (hrule hc (mapSpan_eq_failed.1 hg)).within .expressionStmt

theorem statementWith_placed (h : inner.Placed) (hfail : inner.Fails) :
    (statementWith inner).FailsPlaced := by
  refine .choice ?_ (statementWith_fails hfail) ?_
  · simp only [List.forall_mem_cons, List.not_mem_nil, false_implies, implies_true, and_true]
    exact ⟨CommitsPlaced.map (fun _ _ _ hc hf _ => blockWith_placed h hfail hc hf) _,
      conditionalWith_placed h hfail, whileWith_placed h hfail, loopWith_placed h hfail,
      breakLoop_placed, continueLoop_placed, returnValue_placed, letBinding_placed,
      constBinding_placed, functionWith_placed h hfail,
      fun _ _ _ hc hf _ => expressionStmt_placed hc hf⟩
  · rintro s i f (rfl | ⟨-, hf⟩)
    · exact .of_frameless rfl
    · rw [hf]
      exact .of_stop (f := { cause := .literal ";", offset := f.offset }) rfl (.inl .expressionStmt)

theorem InnerStmt.ofLevels_placed (n : Nat) : (InnerStmt.ofLevels n).Placed := by
  induction n with
  | zero =>
    have hdeep : (tooDeep : Parser Stmt).FailsPlaced := by
      rintro s c _ - ⟨⟩
      exact .of_frameless rfl
    exact ⟨hdeep, fun _ _ _ hc hf _ => hdeep hc hf⟩
  | succ n ih =>
    have hfail := InnerStmt.ofLevels_fails n
    exact ⟨statementWith_placed ih hfail, conditionalWith_placed ih hfail⟩

end Rules

theorem statement_placed : statement.FailsPlaced := fun _ c _ hc hf =>
  statementWith_placed (InnerStmt.ofLevels_placed c.room) (InnerStmt.ofLevels_fails c.room) hc hf

/-- The breadcrumb of every failed program is accurate, whatever statements, blocks and chains of
conditionals it stopped in. -/
theorem program_breadcrumb {s : Source} {c : Cursor} {f : Failure} (hc : c.offset ≤ s.length)
    (h : program s c = .failed f) : f.Breadcrumb s c.offset := by
  obtain ⟨g, hg, rfl⟩ := labelled_eq_failed.1 h
  have hbody := statementsUntil_placed endOfInput "end of input" statement_placed statement_consumes
  exact (hbody hc (mapSpan_eq_failed.1 hg)).breadcrumb c.offset

theorem program_breadcrumb_else_if :
    ∃ f, program (.ofText "fn f() { if a {} else if b { x = ; } }") ⟨0, 0⟩ = .failed f ∧
      f.frames = [⟨"expression", 29⟩, ⟨"expression_statement", 29⟩, ⟨"block", 27⟩,
        ⟨"if_statement", 22⟩, ⟨"if_statement", 9⟩, ⟨"block", 7⟩, ⟨"function_declaration", 0⟩,
        ⟨"program", 0⟩] ∧
      f.Breadcrumb (.ofText "fn f() { if a {} else if b { x = ; } }") 0 := by
  have hframes : (program (.ofText "fn f() { if a {} else if b { x = ; } }") ⟨0, 0⟩).frames =
      [⟨"expression", 29⟩, ⟨"expression_statement", 29⟩, ⟨"block", 27⟩, ⟨"if_statement", 22⟩,
        ⟨"if_statement", 9⟩, ⟨"block", 7⟩, ⟨"function_declaration", 0⟩, ⟨"program", 0⟩] := by
    decide +kernel
  cases h : program (.ofText "fn f() { if a {} else if b { x = ; } }") ⟨0, 0⟩ with
  | ok d p =>
    rw [h] at hframes
    cases hframes
  | failed f =>
    rw [h] at hframes
    exact ⟨f, rfl, hframes, program_breadcrumb (c := ⟨0, 0⟩) (Nat.zero_le _) h⟩

end Grammar

end BrookSyntax
