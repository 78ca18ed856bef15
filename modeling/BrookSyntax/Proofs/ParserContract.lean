import BrookSyntax.Proofs.RuleBounds

namespace BrookSyntax

namespace Parser

variable {α : Type}

theorem WellBehaved.spaces : spaces.WellBehaved :=
  fun s c hc => WellBehaved.takeWhile CodeUnit.isSpace s c hc

theorem WellBehaved.sequence {ps : List (Parser α)} (h : ∀ p ∈ ps, p.WellBehaved) :
    (sequence ps).WellBehaved := by
  induction ps with
  | nil => exact .pure []
  | cons p ps ih =>
    rw [List.forall_mem_cons] at h
    apply h.1.bind
    intro a
    apply (ih h.2).bind
    intro as
    exact .pure (a :: as)

end Parser

namespace Grammar

open BrookSyntax.Parser

/-- The parsers that look at the text themselves keep to the contract. -/
structure PrimitiveContract : Prop where
  literal : ∀ text : Text, (literal text).WellBehaved
  literalBefore : ∀ (text : Text) (forbidden : Option CodeUnit → Bool),
    (literalBefore text forbidden).WellBehaved
  keyword : ∀ word : Text, (keyword word).WellBehaved
  satisfy : ∀ (test : CodeUnit → Bool) (description : Text), (satisfy test description).WellBehaved
  takeWhile : ∀ test : CodeUnit → Bool, (takeWhile test).WellBehaved
  spaces : spaces.WellBehaved
  trivia : trivia.WellBehaved
  endOfInput : endOfInput.WellBehaved
  fail : ∀ {α : Type} (cause : Cause), (fail cause : Parser α).WellBehaved
  abort : ∀ {α : Type} (cause : Cause), (abort cause : Parser α).WellBehaved
  identifier : identifier.WellBehaved
  number : number.WellBehaved
  string : string.WellBehaved

/-- What is put together of parsers that keep to the contract keeps to it. -/
structure CombinatorContract : Prop where
  sequence : ∀ {α : Type} {ps : List (Parser α)},
    (∀ p ∈ ps, p.WellBehaved) → (Parser.sequence ps).WellBehaved
  bind : ∀ {α β : Type} {p : Parser α} {f : α → Parser β},
    p.WellBehaved → (∀ a, (f a).WellBehaved) → (p >>= f).WellBehaved
  seqRight : ∀ {α β : Type} {p : Parser α} {q : Parser β},
    p.WellBehaved → q.WellBehaved → (p *> q).WellBehaved
  seqLeft : ∀ {α β : Type} {p : Parser α} {q : Parser β},
    p.WellBehaved → q.WellBehaved → (p <* q).WellBehaved
  between : ∀ {α β γ : Type} {p : Parser α} {q : Parser β} {r : Parser γ},
    p.WellBehaved → q.WellBehaved → r.WellBehaved → (between p q r).WellBehaved
  choice : ∀ {α : Type} {ps : List (Parser α)},
    (∀ p ∈ ps, p.WellBehaved) → (choice ps).WellBehaved
  optional : ∀ {α : Type} {p : Parser α}, p.WellBehaved → (optional p).WellBehaved
  many : ∀ {α : Type} {p : Parser α}, p.WellBehaved → (many p).WellBehaved
  sepBy : ∀ {α β : Type} {item : Parser α} {separator : Parser β},
    item.WellBehaved → separator.WellBehaved → (sepBy item separator).WellBehaved
  mapSpan : ∀ {α β : Type} {p : Parser α} (f : α → Span → β),
    p.WellBehaved → (mapSpan p f).WellBehaved
  consumed : ∀ {α : Type} {p : Parser α}, p.WellBehaved → (consumed p).WellBehaved
  labelled : ∀ {α : Type} {p : Parser α} (label : Text),
    p.WellBehaved → (labelled label p).WellBehaved
  committed : ∀ {α : Type} {p : Parser α}, p.WellBehaved → (committed p).WellBehaved
  deeper : ∀ {α : Type} {p : Parser α}, p.WellBehaved → (deeper p).WellBehaved
  describedAs : ∀ {α : Type} {p : Parser α} (description : Text),
    p.WellBehaved → (describedAs description p).WellBehaved
  statementsUntil : ∀ {α : Type} {stmt : Parser Stmt} {terminator : Parser α} (expected : Text),
    stmt.WellBehaved → terminator.WellBehaved →
      (statementsUntil stmt terminator expected).WellBehaved

/-- The rules of the grammar keep to the contract. -/
structure RuleContract : Prop where
  expression : expression.WellBehaved
  statement : statement.WellBehaved
  block : block.WellBehaved
  conditional : conditional.WellBehaved
  whileLoop : whileLoop.WellBehaved
  loop : loop.WellBehaved
  breakLoop : breakLoop.WellBehaved
  continueLoop : continueLoop.WellBehaved
  returnValue : returnValue.WellBehaved
  letBinding : letBinding.WellBehaved
  constBinding : constBinding.WellBehaved
  function : function.WellBehaved
  expressionStmt : expressionStmt.WellBehaved
  program : program.WellBehaved

theorem primitives_wellBehaved : PrimitiveContract where
  literal := .literal
  literalBefore := .literalBefore
  keyword := .keyword
  satisfy := .satisfy
  takeWhile := .takeWhile
  spaces := .spaces
  trivia := .trivia
  endOfInput := .endOfInput
  fail := .fail
  abort := .abort
  identifier := identifier_wellBehaved
  number := number_wellBehaved
  string := string_wellBehaved

theorem combinators_wellBehaved : CombinatorContract where
  sequence h := .sequence h
  bind hp hf := hp.bind hf
  seqRight hp hq := hp.seqRight hq
  seqLeft hp hq := hp.seqLeft hq
  between hp hq hr := .between hp hq hr
  choice h := .choice h
  optional hp := hp.optional
  many hp := hp.many
  sepBy hi hs := hi.sepBy hs
  mapSpan f hp := hp.mapSpan f
  consumed hp := hp.consumed
  labelled label hp := hp.labelled label
  committed hp := hp.committed
  deeper hp := hp.deeper
  describedAs description hp := hp.describedAs description
  statementsUntil expected hs ht := statementsUntil_wellBehaved hs ht expected

theorem rules_wellBehaved : RuleContract where
  expression := expression_wellBehaved
  statement := atLevel_wellBehaved fun _ => statementWith_wellBehaved
  block := atLevel_wellBehaved fun _ => blockWith_wellBehaved
  conditional := atLevel_wellBehaved fun _ h => (conditionalWith_consumes h).wellBehaved
  whileLoop := atLevel_wellBehaved fun _ h => (whileWith_consumes h).wellBehaved
  loop := atLevel_wellBehaved fun _ h => (loopWith_consumes h).wellBehaved
  breakLoop := breakLoop_consumes.wellBehaved
  continueLoop := continueLoop_consumes.wellBehaved
  returnValue := returnValue_consumes.wellBehaved
  letBinding := letBinding_consumes.wellBehaved
  constBinding := constBinding_consumes.wellBehaved
  function := atLevel_wellBehaved fun _ h => (functionWith_consumes h).wellBehaved
  expressionStmt := expressionStmt_consumes.wellBehaved
  program := program_wellBehaved

/-- Every parser of the text keeps to the contract, every combinator hands it on, and every rule
keeps to it, whatever the source, the offset within it and the depth. -/
theorem parsers_wellBehaved : PrimitiveContract ∧ CombinatorContract ∧ RuleContract :=
  ⟨primitives_wellBehaved, combinators_wellBehaved, rules_wellBehaved⟩

end Grammar

end BrookSyntax
