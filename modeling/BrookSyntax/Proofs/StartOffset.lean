import BrookSyntax.Proofs.Carrying
import BrookSyntax.Proofs.OutcomeContract
import BrookSyntax.Proofs.Respan

namespace BrookSyntax

section Spans

variable (s : Source) (k : Nat)

/-- Spans that are carried along keep the order of their ends. -/
def Respan.carry : Respan :=
  have hcarry : Position.InOrder (s.carry k) :=
    s.position_inOrder fun _ _ h => Nat.add_le_add_right h k
  .ofEnds (s.carry k) (s.carry k) hcarry hcarry

theorem Span.carry_cover (a b : Span) : (a.cover b).carry s k = (a.carry s k).cover (b.carry s k) :=
  (Respan.carry s k).cover a b

end Spans

section Trees

variable (g : Span → Span)

theorem Expr.allMapSpans_eq_map (es : List Expr) : allMapSpans g es = es.map (mapSpans g) := by
  induction es with
  | nil => rfl
  | cons e es ih => rw [allMapSpans, ih, List.map_cons]

theorem Stmt.allMapSpans_eq_map (stmts : List Stmt) :
    allMapSpans g stmts = stmts.map (mapSpans g) := by
  induction stmts with
  | nil => rfl
  | cons stmt rest ih => rw [allMapSpans, ih, List.map_cons]

theorem Block.optionMapSpans_eq_map (body : Option Block) :
    optionMapSpans g body = body.map (mapSpans g) := by
  cases body <;> rfl

theorem Stmt.mapSpans_span (stmt : Stmt) : (stmt.mapSpans g).span = g stmt.span := by
  cases stmt with
  | block body => cases body; rfl
  | _ => rfl

/-- The program with all its spans changed. -/
def Program.mapSpans (p : Program) : Program := ⟨Stmt.allMapSpans g p.statements, g p.span⟩

end Trees

/-- A fold over changed items, if the change goes through each of its steps. -/
theorem foldl_map_hom {α β : Type} {step : α → β → α} {f : α → α} {g : β → β}
    (h : ∀ a b, step (f a) (g b) = f (step a b)) (bs : List β) (a : α) :
    (bs.map g).foldl step (f a) = f (bs.foldl step a) := by
  rw [List.foldl_map]
  exact List.foldl_hom f h

namespace Grammar

open BrookSyntax.Parser

variable {s t : Source} {k : Nat}

section Literals

variable (h : s.Rest t k)

include h

theorem identifier_carries : Carries s t k identifier identifier id := by
  have hw : Carries s t k word word id :=
    ((Carries.satisfy h _ _).seqRight (.takeWhile h _)).consumed h
  intro c
  rw [identifier, identifier, hw c]
  cases word t c with
  | failed f => rfl
  | ok d text =>
    dsimp only [Result.carry, id]
    split <;> rfl

theorem name_carries : Carries s t k name name fun n => ⟨n.text, n.span.carry s k⟩ :=
  (identifier_carries h).mapSpan h fun _ _ => rfl

theorem number_carries : Carries s t k number number (.mapSpans (.carry s k)) := by
  have hn : Carries s t k numeral numeral id := by
    have hdigits := Carries.takeWhile h CodeUnit.isDigit
    have hpoint := (Carries.literal h ".").seqRight (.satisfy h CodeUnit.isDigit "digit")
    have hwhole := (Carries.satisfy h CodeUnit.isDigit "number").seqRight hdigits
    exact Carries.consumed h (hwhole.seqRight (hpoint.seqRight hdigits).optional)
  intro c
  rw [number, number, hn c]
  cases numeral t c with
  | failed f => rfl
  | ok d text =>
    dsimp only [Result.carry, id]
    rw [h.spanTo]
    split <;> rfl

theorem stringFrom_carry (n i : Nat) :
    s.stringFrom n (i + k) =
      ((t.stringFrom n i).map fun r => (r.1, r.2 + k)).mapError (Failure.carry k) := by
  induction n generalizing i with
  | zero => rfl
  | succ n ih =>
    have hnext : s.unit? (i + k + 1) = t.unit? (i + 1) := by rw [Nat.add_right_comm, h.unit?]
    rw [Source.stringFrom, Source.stringFrom, h.unit?, hnext, Nat.add_right_comm i k 1,
      Nat.add_right_comm i k 2, ih, ih]
    cases t.unit? i with
    | none => rfl
    | some u =>
      dsimp only
      split
      · rfl
      split
      · cases (t.unit? (i + 1)).bind escapeValue? with
        | none => rfl
        | some v => cases t.stringFrom n (i + 2) <;> rfl
      · cases t.stringFrom n (i + 1) <;> rfl

theorem string_carries : Carries s t k string string (.mapSpans (.carry s k)) := by
  intro c
  have hunit : (c.carry k).peek? s = c.peek? t := h.unit? c.offset
  have hleft : s.length - (c.carry k).offset = t.length - c.offset := h.left c.offset
  have hnext : (c.carry k).offset + 1 = c.offset + 1 + k := Nat.add_right_comm ..
  rw [string, string, hunit, hleft, hnext, stringFrom_carry h]
  split
  · cases t.stringFrom (t.length - c.offset) (c.offset + 1) with
    | error f => rfl
    | ok r => exact congrArg (fun a => Result.ok _ (Expr.string r.1 a)) (h.spanTo c ⟨r.2, c.depth⟩)
  · rfl

theorem constant_carries : Carries s t k constant constant (.mapSpans (.carry s k)) := by
  apply Carries.choice
  simp only [List.forall_mem_cons, List.not_mem_nil, false_implies, implies_true, and_true]
  exact ⟨(Carries.keyword h _).mapSpan h fun _ _ => rfl,
    (Carries.keyword h _).mapSpan h fun _ _ => rfl, (Carries.keyword h _).mapSpan h fun _ _ => rfl⟩

end Literals

/-- The rules that expressions use further in are carried along. -/
structure InnerExpr.Carries (inner : InnerExpr) (s t : Source) (k : Nat) : Prop where
  assignment : Parser.Carries s t k inner.assignment inner.assignment (.mapSpans (.carry s k))
  unary : Parser.Carries s t k inner.unary inner.unary (.mapSpans (.carry s k))

theorem applyCall_carry (callee : Expr) (call : List Expr × Position) :
    applyCall (callee.mapSpans (.carry s k))
        (call.map (List.map (.mapSpans (.carry s k))) (s.carry k)) =
      (applyCall callee call).mapSpans (.carry s k) := by
  rw [applyCall, applyCall, Expr.mapSpans, Expr.allMapSpans_eq_map, Expr.mapSpans_span]
  rfl

theorem applyBinary_carry (left : Expr) (next : BinaryOp × Expr) :
    applyBinary (left.mapSpans (.carry s k)) (next.map id (.mapSpans (.carry s k))) =
      (applyBinary left next).mapSpans (.carry s k) := by
  rw [applyBinary, applyBinary, Expr.mapSpans, Span.carry_cover, ← left.mapSpans_span (.carry s k),
    ← next.2.mapSpans_span (.carry s k)]
  rfl

section Expressions

variable {inner : InnerExpr} (h : s.Rest t k)

include h

theorem comma_carries : Carries s t k comma comma id :=
  ((Carries.literal h _).spaced h).seqRight (.trivia h)

theorem primary_carries (hi : inner.Carries s t k) :
    Carries s t k (primary inner) (primary inner) (.mapSpans (.carry s k)) := by
  have hp : Carries s t k (parenthesized inner) (parenthesized inner) (.mapSpans (.carry s k)) :=
    (Carries.literal h _).seqRight
      (Carries.between (.trivia h) hi.assignment ((Carries.literal h _).spaced h)).deeper.committed
  apply Carries.choice
  simp only [List.forall_mem_cons, List.not_mem_nil, false_implies, implies_true, and_true]
  exact ⟨number_carries h, string_carries h, constant_carries h,
    (name_carries h).map fun _ => rfl, hp⟩

theorem arguments_carries (hi : inner.Carries s t k) :
    Carries s t k (arguments inner) (arguments inner) (List.map (.mapSpans (.carry s k))) := by
  have hs := hi.assignment.sepBy h (comma_carries h)
  exact (Carries.literal h _).seqRight
    (Carries.between (.trivia h) hs ((Carries.literal h _).spaced h)).deeper.committed

theorem called_carries (hi : inner.Carries s t k) :
    Carries s t k (called inner) (called inner) (.mapSpans (.carry s k)) := by
  apply (primary_carries h hi).bind
  intro head
  refine Carries.bind (g := List.map (Prod.map (List.map (.mapSpans (.carry s k))) (s.carry k)))
    (Carries.many h ?_) fun calls => .pure (foldl_map_hom applyCall_carry calls head).symm
  exact ((arguments_carries h hi).spaced h).mapSpan h fun _ _ => rfl

theorem unaryOp_carries : Carries s t k unaryOp unaryOp id := by
  apply Carries.choice
  intro p hp
  obtain ⟨op, -, rfl⟩ := List.mem_map.1 hp
  exact (Carries.literal h _).map fun _ => rfl

theorem unary_carries (hi : inner.Carries s t k) :
    Carries s t k (unary inner) (unary inner) (.mapSpans (.carry s k)) := by
  apply Carries.describedAs
  apply Carries.choice
  simp only [List.forall_mem_cons, List.not_mem_nil, false_implies, implies_true, and_true]
  constructor
  · refine Carries.mapSpan h (g := Prod.map id (.mapSpans (.carry s k))) ?_ fun _ _ => rfl
    apply (unaryOp_carries h).bind
    intro op
    apply (hi.unary.deeper.spaced h).committed.bind
    intro operand
    exact .pure rfl
  · exact called_carries h hi

theorem binaryOp_carries (ops : List BinaryOp) :
    Carries s t k (binaryOp ops) (binaryOp ops) id := by
  apply Carries.choice
  intro p hp
  obtain ⟨op, -, rfl⟩ := List.mem_map.1 hp
  exact (Carries.literal h _).map fun _ => rfl

theorem binary_carries (ops : List BinaryOp) {operand : Parser Expr}
    (ho : Carries s t k operand operand (.mapSpans (.carry s k))) :
    Carries s t k (binary ops operand) (binary ops operand) (.mapSpans (.carry s k)) := by
  apply ho.bind
  intro head
  refine Carries.bind (g := List.map (Prod.map id (.mapSpans (.carry s k))))
    (Carries.many h ?_) fun rest => .pure (foldl_map_hom applyBinary_carry rest head).symm
  apply ((binaryOp_carries h ops).spaced h).bind
  intro op
  apply (ho.spaced h).committed.bind
  intro right
  exact .pure rfl

theorem foldr_binary_carries (levels : List (List BinaryOp)) {operand : Parser Expr}
    (ho : Carries s t k operand operand (.mapSpans (.carry s k))) :
    Carries s t k (levels.foldr binary operand) (levels.foldr binary operand)
      (.mapSpans (.carry s k)) := by
  induction levels with
  | nil => exact ho
  | cons ops levels ih => exact binary_carries h ops ih

theorem assignment_carries (hi : inner.Carries s t k) :
    Carries s t k (assignment inner) (assignment inner) (.mapSpans (.carry s k)) := by
  apply Carries.describedAs
  apply Carries.choice
  simp only [List.forall_mem_cons, List.not_mem_nil, false_implies, implies_true, and_true]
  constructor
  · refine Carries.mapSpan h
      (g := Prod.map (fun n : Name => ⟨n.text, n.span.carry s k⟩) (.mapSpans (.carry s k)))
      ?_ fun _ _ => rfl
    apply (name_carries h).bind
    intro target
    apply (((Carries.literalBefore h _ _).spaced h).seqRight
      (hi.assignment.deeper.spaced h).committed).bind
    intro value
    exact .pure rfl
  · exact foldr_binary_carries h _ (unary_carries h hi)

theorem InnerExpr.ofLevels_carries (n : Nat) : (InnerExpr.ofLevels n).Carries s t k := by
  induction n with
  | zero => exact ⟨.abort _, .abort _⟩
  | succ n ih => exact ⟨assignment_carries h ih, unary_carries h ih⟩

theorem expression_carries : Carries s t k expression expression (.mapSpans (.carry s k)) := by
  intro c
  exact (assignment_carries h (InnerExpr.ofLevels_carries h c.room)).labelled _ c

end Expressions

/-- The rules that statements use further in are carried along. -/
structure InnerStmt.Carries (inner : InnerStmt) (s t : Source) (k : Nat) : Prop where
  statement : Parser.Carries s t k inner.statement inner.statement (.mapSpans (.carry s k))
  conditional : Parser.Carries s t k inner.conditional inner.conditional (.mapSpans (.carry s k))

section Statements

variable {α : Type} {inner : InnerStmt} (h : s.Rest t k)

include h

theorem semicolon_carries : Carries s t k semicolon semicolon id := (Carries.literal h _).spaced h

theorem spaced_expression_carries :
    Carries s t k (spaced expression) (spaced expression) (.mapSpans (.carry s k)) :=
  (expression_carries h).spaced h

theorem statementsWithin_carries {statement : Parser Stmt} {ending : Parser (Option α)} {g : α → α}
    (hs : Carries s t k statement statement (.mapSpans (.carry s k)))
    (he : Carries s t k ending ending (Option.map g)) (expected : Text) (n : Nat) :
    Carries s t k (statementsWithin statement ending expected n)
      (statementsWithin statement ending expected n) (List.map (.mapSpans (.carry s k))) := by
  induction n with
  | zero => exact .fail _
  | succ n ih =>
    apply Carries.spaced h
    intro c
    dsimp only
    rw [he c, h.atEnd]
    cases ending t c with
    | failed f => rfl
    | ok d found =>
      cases found with
      | some a => rfl
      | none =>
        dsimp only [Result.carry, Option.map]
        split
        · rfl
        · rw [hs c]
          cases statement t c with
          | failed f => rfl
          | ok d head =>
            dsimp only [Result.carry]
            rw [ih d]
            cases statementsWithin statement ending expected n t d <;> rfl

theorem statementsUntil_carries {statement : Parser Stmt} {terminator : Parser α} {g : α → α}
    (hs : Carries s t k statement statement (.mapSpans (.carry s k)))
    (ht : Carries s t k terminator terminator g) (expected : Text) :
    Carries s t k (statementsUntil statement terminator expected)
      (statementsUntil statement terminator expected) (List.map (.mapSpans (.carry s k))) := by
  intro c
  have hleft : s.length - (c.carry k).offset = t.length - c.offset := h.left c.offset
  rw [statementsUntil, statementsTo, statementsTo, hleft]
  exact statementsWithin_carries h hs ht.attempt expected _ c

theorem blockWith_carries (hi : inner.Carries s t k) :
    Carries s t k (blockWith inner) (blockWith inner) (.mapSpans (.carry s k)) := by
  apply Carries.labelled
  refine Carries.mapSpan h ((Carries.literal h _).seqRight
    (statementsUntil_carries h hi.statement (.literal h _) _).deeper.committed) ?_
  intro stmts span
  rw [Block.mapSpans, Stmt.allMapSpans_eq_map]

theorem elseWith_carries (hi : inner.Carries s t k) :
    Carries s t k (elseWith inner) (elseWith inner) (.mapSpans (.carry s k)) := by
  apply ((Carries.keyword h _).spaced h).seqRight
  apply Carries.committed
  apply Carries.spaced h
  apply Carries.choice
  simp only [List.forall_mem_cons, List.not_mem_nil, false_implies, implies_true, and_true]
  refine ⟨blockWith_carries h hi, hi.conditional.deeper.map ?_⟩
  intro stmt
  rw [Block.mapSpans, Stmt.mapSpans_span, Stmt.allMapSpans_eq_map, List.map_singleton]

theorem keyword_statement_carries {p : Parser α} {g : α → α} {f : α → Span → Stmt}
    (label word : Text) (hp : Carries s t k p p g)
    (hf : ∀ a span, f (g a) (span.carry s k) = (f a span).mapSpans (.carry s k)) :
    Carries s t k (labelled label (mapSpan (keyword word *> committed p) f))
      (labelled label (mapSpan (keyword word *> committed p) f)) (.mapSpans (.carry s k)) :=
  (((Carries.keyword h word).seqRight hp.committed).mapSpan h hf).labelled label

theorem conditionalWith_carries (hi : inner.Carries s t k) :
    Carries s t k (conditionalWith inner) (conditionalWith inner) (.mapSpans (.carry s k)) := by
  refine keyword_statement_carries h _ _
    (g := Prod.map (.mapSpans (.carry s k))
      (Prod.map (.mapSpans (.carry s k)) (Option.map (.mapSpans (.carry s k))))) ?_ ?_
  · apply (spaced_expression_carries h).bind
    intro condition
    apply ((blockWith_carries h hi).spaced h).bind
    intro thenBlock
    apply (elseWith_carries h hi).optional.bind
    intro elseBlock
    exact .pure rfl
  · intro a span
    rw [Stmt.mapSpans, Block.optionMapSpans_eq_map]
    rfl

theorem whileWith_carries (hi : inner.Carries s t k) :
    Carries s t k (whileWith inner) (whileWith inner) (.mapSpans (.carry s k)) := by
  refine keyword_statement_carries h _ _
    (g := Prod.map (.mapSpans (.carry s k)) (.mapSpans (.carry s k))) ?_ fun _ _ => rfl
  apply (spaced_expression_carries h).bind
  intro condition
  apply ((blockWith_carries h hi).spaced h).bind
  intro body
  exact .pure rfl

theorem letBinding_carries : Carries s t k letBinding letBinding (.mapSpans (.carry s k)) := by
  refine keyword_statement_carries h _ _
    (g := Prod.map id (Option.map (.mapSpans (.carry s k)))) ?_ fun _ _ => rfl
  apply ((identifier_carries h).spaced h).bind
  intro name
  have hi : Carries s t k initializer initializer (Option.map (.mapSpans (.carry s k))) :=
    (((Carries.literal h _).spaced h).seqRight (spaced_expression_carries h).committed).optional
  apply (hi.seqLeft (semicolon_carries h)).bind
  intro init
  exact .pure rfl

theorem constBinding_carries :
    Carries s t k constBinding constBinding (.mapSpans (.carry s k)) := by
  refine keyword_statement_carries h _ _
    (g := Prod.map id (.mapSpans (.carry s k))) ?_ fun _ _ => rfl
  apply ((identifier_carries h).spaced h).bind
  intro name
  have he := ((Carries.literal h "=").spaced h).seqRight (spaced_expression_carries h)
  apply (he.seqLeft (semicolon_carries h)).bind
  intro init
  exact .pure rfl

theorem parameters_carries : Carries s t k parameters parameters id := by
  have hs := (identifier_carries h).sepBy h (comma_carries h)
  rw [List.map_id_fun] at hs
  exact ((Carries.literal h _).seqRight (.trivia h)).between hs ((Carries.literal h _).spaced h)

theorem functionWith_carries (hi : inner.Carries s t k) :
    Carries s t k (functionWith inner) (functionWith inner) (.mapSpans (.carry s k)) := by
  refine keyword_statement_carries h _ _
    (g := Prod.map id (Prod.map id (.mapSpans (.carry s k)))) ?_ fun _ _ => rfl
  apply ((identifier_carries h).spaced h).bind
  intro name
  apply ((parameters_carries h).spaced h).bind
  intro params
  apply ((blockWith_carries h hi).spaced h).bind
  intro body
  exact .pure rfl

theorem statementWith_carries (hi : inner.Carries s t k) :
    Carries s t k (statementWith inner) (statementWith inner) (.mapSpans (.carry s k)) := by
  have hsemi := semicolon_carries h
  apply Carries.choice
  simp only [List.forall_mem_cons, List.not_mem_nil, false_implies, implies_true, and_true]
  refine ⟨?_, ?_, ?_, ?_, ?_, ?_, ?_, ?_, ?_, ?_, ?_⟩
  · exact (blockWith_carries h hi).map fun _ => rfl
  · exact conditionalWith_carries h hi
  · exact whileWith_carries h hi
  · exact keyword_statement_carries h _ _ ((blockWith_carries h hi).spaced h) fun _ _ => rfl
  · exact keyword_statement_carries h _ _ hsemi fun _ _ => rfl
  · exact keyword_statement_carries h _ _ hsemi fun _ _ => rfl
  · exact keyword_statement_carries h _ _
      ((spaced_expression_carries h).optional.seqLeft hsemi) fun _ _ => rfl
  · exact letBinding_carries h
  · exact constBinding_carries h
  · exact functionWith_carries h hi
  · exact (((expression_carries h).seqLeft hsemi).mapSpan h fun _ _ => rfl).labelled _

theorem InnerStmt.ofLevels_carries (n : Nat) : (InnerStmt.ofLevels n).Carries s t k := by
  induction n with
  | zero => exact ⟨.abort _, .abort _⟩
  | succ n ih => exact ⟨statementWith_carries h ih, conditionalWith_carries h ih⟩

theorem statement_carries : Carries s t k statement statement (.mapSpans (.carry s k)) :=
  fun c => statementWith_carries h (InnerStmt.ofLevels_carries h c.room) c

theorem block_carries : Carries s t k block block (.mapSpans (.carry s k)) :=
  fun c => blockWith_carries h (InnerStmt.ofLevels_carries h c.room) c

theorem program_carries : Carries s t k program program (.mapSpans (.carry s k)) := by
  apply Carries.labelled
  refine Carries.mapSpan h (statementsUntil_carries h (statement_carries h) (.endOfInput h) _) ?_
  intro stmts span
  rw [Program.mapSpans, Stmt.allMapSpans_eq_map]

end Statements

/-- Parsing a text from an offset on is parsing what it holds from there on. A tree is the same with
all its places that many units further on, looked up in the whole text; a failure is the same with
its offset and those of its frames larger by that many units. -/
theorem parse_from_offset (text : Text) {k : Nat} (hk : k ≤ text.length) :
    let s := Source.ofText text
    let t := Source.ofText (text.drop k)
    (∀ x : Double, x.toInt? = some (k : Int) →
      s.parse x = (t.parse .zero).map (Result.carry k (.mapSpans (.carry s k)))) ∧
    ∀ depth : Int,
      statement s ⟨k, depth⟩ = (statement t ⟨0, depth⟩).carry k (.mapSpans (.carry s k)) ∧
      block s ⟨k, depth⟩ = (block t ⟨0, depth⟩).carry k (.mapSpans (.carry s k)) ∧
      expression s ⟨k, depth⟩ = (expression t ⟨0, depth⟩).carry k (.mapSpans (.carry s k)) := by
  intro s t
  have hrest : s.Rest t k := Source.rest_ofText text hk
  have hstart (depth : Int) : (⟨k, depth⟩ : Cursor) = Cursor.carry k ⟨0, depth⟩ := by
    rw [Cursor.carry, Nat.zero_add]
  refine ⟨fun x hx => ?_, fun depth => ?_⟩
  · have hzero : t.cursor .zero = .ok ⟨0, 0⟩ :=
      Source.cursor_eq_ok (Nat.zero_le _) (by decide +kernel)
    rw [Source.parse, Source.parse, Source.cursor_eq_ok hrest.le hx, hzero, hstart]
    exact congrArg Except.ok (program_carries hrest ⟨0, 0⟩)
  · rw [hstart]
    exact ⟨statement_carries hrest _, block_carries hrest _, expression_carries hrest _⟩

theorem parse_from_offset_second_line :
    ∃ p, (Source.ofText "x;\ny;").parse (.number (.ofNat 3)) = .ok (.ok ⟨5, 0⟩ p) ∧
      p.span = ⟨⟨2, 1, 3⟩, ⟨2, 3, 5⟩⟩ := by
  have hstop : (program (.ofText "y;") ⟨0, 0⟩).stop? = some ⟨2, 0⟩ := by decide +kernel
  obtain ⟨p, hp⟩ := Result.ok_of_stop hstop
  have hrest : (Source.ofText "y;").parse .zero = .ok (.ok ⟨2, 0⟩ p) := by
    rw [Source.parse, Source.cursor_eq_ok (Nat.zero_le _) (by decide +kernel)]
    exact congrArg Except.ok hp
  have hparse := (parse_from_offset "x;\ny;" (k := 3) (by decide)).1 (.number (.ofNat 3))
    (by decide +kernel)
  have hspan : p.span = ⟨⟨1, 1, 0⟩, ⟨1, 3, 2⟩⟩ := by
    rw [(program_span (Nat.zero_le _) hp).2]
    decide +kernel
  refine ⟨p.mapSpans (.carry (.ofText "x;\ny;") 3), hparse.trans ?_, ?_⟩
  · rw [show List.drop 3 (Text.ofString "x;\ny;") = "y;" from rfl, hrest]
    rfl
  · change p.span.carry _ _ = _
    rw [hspan]
    decide +kernel

end Grammar

end BrookSyntax
