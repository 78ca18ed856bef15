import Mathlib.Data.List.Forall2
import BrookSyntax.Proofs.Success

namespace BrookSyntax

/-- What the result at one depth has become at another: the same success or failure, or the failure
at the limit. -/
inductive Result.Deepened {α : Type} (d d' : Int) : Result α → Result α → Prop where
  | ok (i : Nat) (a : α) : Deepened d d' (.ok ⟨i, d⟩ a) (.ok ⟨i, d'⟩ a)
  | failed (f : Failure) : Deepened d d' (.failed f) (.failed f)
  | limit {r : Result α} {f : Failure} (hcom : f.committed = true)
      (hcause : f.cause = .token "nesting depth <= 128") : Deepened d d' r (.failed f)

namespace Parser

variable {α β γ : Type} {d d' : Int}

/-- From every offset, the second parser at the second depth gives what the first one gives at the
first, but for the limit. -/
def Agrees (d d' : Int) (p p' : Parser α) : Prop :=
  ∀ s i, (p s ⟨i, d⟩).Deepened d d' (p' s ⟨i, d'⟩)

/-- The parser gives the same at both depths, without a limit. -/
def Blind (d d' : Int) (p : Parser α) : Prop :=
  ∀ s i, (∃ j a, p s ⟨i, d⟩ = .ok ⟨j, d⟩ a ∧ p s ⟨i, d'⟩ = .ok ⟨j, d'⟩ a) ∨
    ∃ f, p s ⟨i, d⟩ = .failed f ∧ p s ⟨i, d'⟩ = .failed f

section Combinators

variable {p p' : Parser α} {q q' : Parser β} {r r' : Parser γ}

theorem Blind.agrees (hp : p.Blind d d') : p.Agrees d d' p := by
  intro s i
  obtain ⟨j, a, h, h'⟩ | ⟨f, h, h'⟩ := hp s i
  · rw [h, h']
    exact .ok j a
  · rw [h, h']
    exact .failed f

theorem Blind.literal (t : Text) : (literal t).Blind d d' := by
  intro s i
  unfold Parser.literal
  dsimp only
  cases s.hasAt i t with
  | true => exact .inl ⟨_, t, rfl, rfl⟩
  | false => exact .inr ⟨_, rfl, rfl⟩

theorem Blind.literalBefore (t : Text) (forbidden : Option CodeUnit → Bool) :
    (literalBefore t forbidden).Blind d d' := by
  intro s i
  unfold Parser.literalBefore
  cases s.hasAt i t && !forbidden (s.unit? (i + t.length)) with
  | true => exact .inl ⟨_, t, rfl, rfl⟩
  | false => exact .inr ⟨_, rfl, rfl⟩

theorem Blind.satisfy (test : CodeUnit → Bool) (description : Text) :
    (satisfy test description).Blind d d' := by
  intro s i
  unfold Parser.satisfy Cursor.peek?
  cases s.unit? i with
  | none => exact .inr ⟨_, rfl, rfl⟩
  | some u =>
    dsimp only
    cases test u with
    | true => exact .inl ⟨_, _, rfl, rfl⟩
    | false => exact .inr ⟨_, rfl, rfl⟩

theorem Blind.takeWhile (test : CodeUnit → Bool) : (takeWhile test).Blind d d' :=
  fun _ _ => .inl ⟨_, _, rfl, rfl⟩

/-- A look for something takes a failure at the limit for its absence, so it is only for parsers
without one. -/
theorem Blind.attempt (hp : p.Blind d d') : (attempt p).Blind d d' := by
  intro s i
  unfold Parser.attempt
  obtain ⟨j, a, h, h'⟩ | ⟨f, h, h'⟩ := hp s i
  · rw [h, h']
    exact .inl ⟨j, some a, rfl, rfl⟩
  · rw [h, h']
    exact .inl ⟨i, none, rfl, rfl⟩

theorem Agrees.trivia : trivia.Agrees d d' trivia := fun _ _ => .ok _ _

theorem Agrees.pure (a : α) : Agrees d d' (Pure.pure a : Parser α) (Pure.pure a) :=
  fun _ i => .ok i a

theorem Agrees.bind {g g' : α → Parser β} (hp : p.Agrees d d' p')
    (hg : ∀ a, (g a).Agrees d d' (g' a)) : (p >>= g).Agrees d d' (p' >>= g') := by
  intro s i
  have h := hp s i
  rw [bind_apply, bind_apply]
  generalize p s ⟨i, d⟩ = x, p' s ⟨i, d'⟩ = x' at h ⊢
  cases h with
  | ok j a => exact hg a s j
  | failed f => exact .failed f
  | limit hcom hcause => exact .limit hcom hcause

theorem Agrees.seqRight (hp : p.Agrees d d' p') (hq : q.Agrees d d' q') :
    (p *> q).Agrees d d' (p' *> q') :=
  fun s i => hp.bind (fun _ => hq) s i

theorem Agrees.seqLeft (hp : p.Agrees d d' p') (hq : q.Agrees d d' q') :
    (p <* q).Agrees d d' (p' <* q') := by
  have hbind := hp.bind fun a => hq.bind fun _ => Agrees.pure a
  intro s i
  rw [seqLeft_apply, seqLeft_apply]
  exact hbind s i

theorem Agrees.spaced (hp : p.Agrees d d' p') : (spaced p).Agrees d d' (spaced p') :=
  Agrees.trivia.seqRight hp

theorem Agrees.between (hp : p.Agrees d d' p') (hq : q.Agrees d d' q') (hr : r.Agrees d d' r') :
    (between p q r).Agrees d d' (between p' q' r') :=
  (hp.seqRight hq).seqLeft hr

theorem Agrees.map (hp : p.Agrees d d' p') (g : α → β) : (g <$> p).Agrees d d' (g <$> p') :=
  hp.bind fun a => .pure (g a)

theorem Agrees.mapSpan (hp : p.Agrees d d' p') (g : α → Span → β) :
    (mapSpan p g).Agrees d d' (mapSpan p' g) := by
  intro s i
  have h := hp s i
  unfold Parser.mapSpan
  generalize p s ⟨i, d⟩ = x, p' s ⟨i, d'⟩ = x' at h ⊢
  cases h with
  | ok j a => exact .ok j _
  | failed f => exact .failed f
  | limit hcom hcause => exact .limit hcom hcause

theorem Agrees.consumed (hp : p.Agrees d d' p') : (consumed p).Agrees d d' (consumed p') := by
  intro s i
  have h := hp s i
  unfold Parser.consumed
  generalize p s ⟨i, d⟩ = x, p' s ⟨i, d'⟩ = x' at h ⊢
  cases h with
  | ok j a => exact .ok j _
  | failed f => exact .failed f
  | limit hcom hcause => exact .limit hcom hcause

theorem Agrees.labelled (hp : p.Agrees d d' p') (label : Text) :
    (labelled label p).Agrees d d' (labelled label p') := by
  intro s i
  have h := hp s i
  unfold Parser.labelled
  generalize p s ⟨i, d⟩ = x, p' s ⟨i, d'⟩ = x' at h ⊢
  cases h with
  | ok j a => exact .ok j a
  | failed f => exact .failed _
  | limit hcom hcause => exact .limit hcom hcause

theorem Agrees.committed (hp : p.Agrees d d' p') :
    (committed p).Agrees d d' (committed p') := by
  intro s i
  have h := hp s i
  unfold Parser.committed
  generalize p s ⟨i, d⟩ = x, p' s ⟨i, d'⟩ = x' at h ⊢
  cases h with
  | ok j a => exact .ok j a
  | failed f => exact .failed _
  | limit _ hcause => exact .limit rfl hcause

theorem Agrees.describedAs (hp : p.Agrees d d' p') (description : Text) :
    (describedAs description p).Agrees d d' (describedAs description p') := by
  intro s i
  have h := hp s i
  unfold Parser.describedAs
  generalize p s ⟨i, d⟩ = x, p' s ⟨i, d'⟩ = x' at h ⊢
  cases h with
  | ok j a => exact .ok j a
  | failed f =>
    dsimp only
    split <;> exact .failed _
  | limit hcom hcause =>
    simp only [hcom, Bool.true_or, ↓reduceIte]
    exact .limit hcom hcause

theorem Agrees.optional (hp : p.Agrees d d' p') : (optional p).Agrees d d' (optional p') := by
  intro s i
  have h := hp s i
  unfold Parser.optional
  generalize p s ⟨i, d⟩ = x, p' s ⟨i, d'⟩ = x' at h ⊢
  cases h with
  | ok j a => exact .ok j _
  | failed f =>
    dsimp only
    split
    · exact .failed f
    · exact .ok i none
  | limit hcom hcause =>
    simp only [hcom, ↓reduceIte]
    exact .limit hcom hcause

theorem Agrees.many (hp : p.Agrees d d' p') : (many p).Agrees d d' (many p') := by
  intro s i
  change (manyWithin p (s.length - i + 1) s ⟨i, d⟩).Deepened d d'
    (manyWithin p' (s.length - i + 1) s ⟨i, d'⟩)
  generalize s.length - i + 1 = n
  induction n generalizing i with
  | zero => exact .ok i []
  | succ n ih =>
    have h := hp s i
    dsimp only [manyWithin]
    generalize p s ⟨i, d⟩ = x, p' s ⟨i, d'⟩ = x' at h ⊢
    cases h with
    | ok j a =>
      dsimp only
      split
      · exact .ok i []
      have hrest := ih j
      generalize manyWithin p n s ⟨j, d⟩ = y, manyWithin p' n s ⟨j, d'⟩ = y' at hrest ⊢
      cases hrest with
      | ok k as => exact .ok k _
      | failed f => exact .failed f
      | limit hcom hcause => exact .limit hcom hcause
    | failed f =>
      dsimp only
      split
      · exact .failed f
      · exact .ok i []
    | limit hcom hcause =>
      simp only [hcom, ↓reduceIte]
      exact .limit hcom hcause

theorem Agrees.sepBy (hp : p.Agrees d d' p') (hq : q.Agrees d d' q') :
    (sepBy p q).Agrees d d' (sepBy p' q') := by
  intro s i
  have h := hp s i
  unfold Parser.sepBy
  generalize p s ⟨i, d⟩ = x, p' s ⟨i, d'⟩ = x' at h ⊢
  cases h with
  | ok j a =>
    have hrest := (hq.seqRight hp).many s j
    dsimp only
    generalize Parser.many (q *> p) s ⟨j, d⟩ = y, Parser.many (q' *> p') s ⟨j, d'⟩ = y' at hrest ⊢
    cases hrest with
    | ok k as => exact .ok k _
    | failed f => exact .failed f
    | limit hcom hcause => exact .limit hcom hcause
  | failed f =>
    dsimp only
    split
    · exact .failed f
    · exact .ok i []
  | limit hcom hcause =>
    simp only [hcom, ↓reduceIte]
    exact .limit hcom hcause

/-- The alternatives decline alike, or end the choice alike, or one ends it at the limit. -/
theorem attempts_agree {ps ps' : List (Parser α)} (h : List.Forall₂ (Agrees d d') ps ps')
    (s : Source) (i : Nat) :
    (∃ fs, attempts s ⟨i, d⟩ ps = .inr fs ∧ attempts s ⟨i, d'⟩ ps' = .inr fs) ∨
      (∃ x x', attempts s ⟨i, d⟩ ps = .inl x ∧ attempts s ⟨i, d'⟩ ps' = .inl x' ∧
        x.Deepened d d' x') ∨
      ∃ f, attempts s ⟨i, d'⟩ ps' = .inl (.failed f) ∧ f.committed = true ∧
        f.cause = .token "nesting depth <= 128" := by
  induction h with
  | nil => exact .inl ⟨[], rfl, rfl⟩
  | @cons p p' ps ps' hp hps ih =>
    have h := hp s i
    rw [attempts_cons, attempts_cons]
    generalize p s ⟨i, d⟩ = x, p' s ⟨i, d'⟩ = x' at h ⊢
    cases h with
    | ok j a => exact .inr (.inl ⟨_, _, rfl, rfl, .ok j a⟩)
    | failed f =>
      cases hcom : f.committed with
      | true =>
        simp only [hcom, ↓reduceIte]
        exact .inr (.inl ⟨_, _, rfl, rfl, .failed f⟩)
      | false =>
        simp only [hcom, Bool.false_eq_true, ↓reduceIte]
        obtain ⟨fs, h, h'⟩ | ⟨x, x', h, h', hx⟩ | ⟨g, h', hg⟩ := ih
        · exact .inl ⟨f :: fs, by rw [h], by rw [h']⟩
        · exact .inr (.inl ⟨x, x', by rw [h], by rw [h'], hx⟩)
        · exact .inr (.inr ⟨g, by rw [h'], hg⟩)
    | @limit _ f hcom hcause =>
      simp only [hcom, ↓reduceIte]
      exact .inr (.inr ⟨f, rfl, hcom, hcause⟩)

theorem Agrees.choice {ps ps' : List (Parser α)} (h : List.Forall₂ (Agrees d d') ps ps') :
    (choice ps).Agrees d d' (choice ps') := by
  intro s i
  unfold Parser.choice
  obtain ⟨fs, h, h'⟩ | ⟨x, x', h, h', hx⟩ | ⟨f, h', hcom, hcause⟩ := attempts_agree h s i
  · rw [h, h']
    exact .failed _
  · rw [h, h']
    exact hx
  · rw [h']
    exact .limit hcom hcause

/-- One level further in both parsers go where a level is left, and else the deeper one fails. -/
theorem Agrees.deeper (hle : d ≤ d')
    (hp : d' < maxDepth → p.Agrees (d + 1) (d' + 1) p') :
    (deeper p).Agrees d d' (deeper p') := by
  intro s i
  unfold Parser.deeper
  dsimp only
  by_cases hd : maxDepth ≤ d'
  · rw [if_pos hd]
    exact .limit rfl rfl
  · have h := hp (Int.not_le.1 hd) s i
    rw [if_neg hd, if_neg (by omega)]
    generalize p s ⟨i, d + 1⟩ = x, p' s ⟨i, d' + 1⟩ = x' at h ⊢
    cases h with
    | ok j a => exact .ok j a
    | failed f => exact .failed f
    | limit hcom hcause => exact .limit hcom hcause

end Combinators

/-- At every greater depth the parser gives what it gives here, but for the limit; so what it reads
at a greater depth it reads here. -/
structure DepthFree (p : Parser α) : Prop where
  deepened : ∀ (s : Source) (i : Nat) (d d' : Int), d ≤ d' →
    (p s ⟨i, d⟩).Deepened d d' (p s ⟨i, d'⟩)
  shallower : ∀ (s : Source) (i : Nat) (d d' : Int) (e : Cursor) (a : α), d ≤ d' →
    p s ⟨i, d'⟩ = .ok e a → e.depth = d' ∧ p s ⟨i, d⟩ = .ok ⟨e.offset, d⟩ a

theorem DepthFree.of_agrees {p : Parser α} (h : ∀ d d' : Int, d ≤ d' → p.Agrees d d' p) :
    p.DepthFree where
  deepened s i d d' hle := h d d' hle s i
  shallower s i d d' e a hle hok := by
    have hp := h d d' hle s i
    rw [hok] at hp
    generalize p s ⟨i, d⟩ = x at hp ⊢
    cases hp with
    | ok j a => exact ⟨rfl, rfl⟩

end Parser

namespace Grammar

open BrookSyntax.Parser

variable {α : Type} {d d' : Int}

theorem keyword_agrees (word : Text) : (keyword word).Agrees d d' (keyword word) :=
  (Blind.literalBefore word _).agrees

theorem literal_agrees (t : Text) : (literal t).Agrees d d' (literal t) := (Blind.literal t).agrees

theorem satisfy_agrees (test : CodeUnit → Bool) (description : Text) :
    (satisfy test description).Agrees d d' (satisfy test description) :=
  (Blind.satisfy test description).agrees

theorem takeWhile_agrees (test : CodeUnit → Bool) :
    (takeWhile test).Agrees d d' (takeWhile test) := (Blind.takeWhile test).agrees

theorem identifier_agrees : identifier.Agrees d d' identifier := by
  have hword : word.Agrees d d' word :=
    ((satisfy_agrees CodeUnit.isWordStart "identifier").seqRight (takeWhile_agrees _)).consumed
  intro s i
  have h := hword s i
  unfold identifier
  generalize word s ⟨i, d⟩ = x, word s ⟨i, d'⟩ = x' at h ⊢
  cases h with
  | ok j w =>
    dsimp only
    split
    · exact .failed _
    · exact .ok j w
  | failed f => exact .failed f
  | limit hcom hcause => exact .limit hcom hcause

theorem name_agrees : name.Agrees d d' name := identifier_agrees.mapSpan _

theorem number_agrees : number.Agrees d d' number := by
  have hpoint : (literal ".").Agrees d d' (literal ".") := literal_agrees "."
  have hfraction := (hpoint.seqRight (satisfy_agrees CodeUnit.isDigit "digit")).seqRight
    (takeWhile_agrees CodeUnit.isDigit)
  have hnumeral : numeral.Agrees d d' numeral :=
    (((satisfy_agrees _ _).seqRight (takeWhile_agrees _)).seqRight hfraction.optional).consumed
  intro s i
  have h := hnumeral s i
  unfold number
  generalize numeral s ⟨i, d⟩ = x, numeral s ⟨i, d'⟩ = x' at h ⊢
  cases h with
  | ok j w =>
    dsimp only
    split
    · exact .ok j _
    · exact .failed _
  | failed f => exact .failed f
  | limit hcom hcause => exact .limit hcom hcause

theorem string_agrees : string.Agrees d d' string := by
  intro s i
  unfold string Cursor.peek?
  dsimp only
  split
  · cases s.stringFrom (s.length - i) (i + 1) with
    | ok r => exact .ok r.2 _
    | error f => exact .failed f
  · exact .failed _

theorem constant_agrees : constant.Agrees d d' constant :=
  .choice <| .cons ((keyword_agrees _).mapSpan _) <| .cons ((keyword_agrees _).mapSpan _) <|
    .cons ((keyword_agrees _).mapSpan _) .nil

theorem operator_agrees (text : α → Text) (ops : List α) :
    (choice (ops.map fun op => (fun _ => op) <$> literal (text op))).Agrees d d'
      (choice (ops.map fun op => (fun _ => op) <$> literal (text op))) := by
  apply Agrees.choice
  rw [List.forall₂_same]
  intro p hp
  obtain ⟨op, -, rfl⟩ := List.mem_map.1 hp
  exact (literal_agrees _).map _

theorem comma_agrees : comma.Agrees d d' comma :=
  (literal_agrees _).spaced.seqRight .trivia

/-- The rules that expressions use one level further in give the same there. -/
structure InnerExpr.Agrees (d d' : Int) (inner inner' : InnerExpr) : Prop where
  assignment : d' < maxDepth → inner.assignment.Agrees (d + 1) (d' + 1) inner'.assignment
  unary : d' < maxDepth → inner.unary.Agrees (d + 1) (d' + 1) inner'.unary

section Expressions

variable {inner inner' : InnerExpr}

theorem enclosed_agrees {p p' : Parser α} (hle : d ≤ d')
    (hp : d' < maxDepth → p.Agrees (d + 1) (d' + 1) p') :
    (literal "(" *> committed (deeper (between trivia p (spaced (literal ")"))))).Agrees d d'
      (literal "(" *> committed (deeper (between trivia p' (spaced (literal ")"))))) :=
  (literal_agrees _).seqRight (Agrees.deeper hle fun hd =>
    Agrees.between .trivia (hp hd) (literal_agrees _).spaced).committed

theorem primary_agrees (hle : d ≤ d') (h : inner.Agrees d d' inner') :
    (primary inner).Agrees d d' (primary inner') :=
  .choice <| .cons number_agrees <| .cons string_agrees <| .cons constant_agrees <|
    .cons (name_agrees.map _) <| .cons (enclosed_agrees hle h.assignment) .nil

theorem arguments_agrees (hle : d ≤ d') (h : inner.Agrees d d' inner') :
    (arguments inner).Agrees d d' (arguments inner') :=
  enclosed_agrees hle fun hd => (h.assignment hd).sepBy comma_agrees

theorem called_agrees (hle : d ≤ d') (h : inner.Agrees d d' inner') :
    (called inner).Agrees d d' (called inner') :=
  (primary_agrees hle h).bind fun _ =>
    ((arguments_agrees hle h).spaced.mapSpan _).many.bind fun _ => .pure _

theorem unary_agrees (hle : d ≤ d') (h : inner.Agrees d d' inner') :
    (unary inner).Agrees d d' (unary inner') := by
  have hoperator : unaryOp.Agrees d d' unaryOp := operator_agrees UnaryOp.symbol UnaryOp.all
  have hoperand := (Agrees.deeper hle h.unary).spaced.committed
  apply Agrees.describedAs
  apply Agrees.choice
  refine .cons (Agrees.mapSpan ?_ _) (.cons (called_agrees hle h) .nil)
  exact hoperator.bind fun op => hoperand.bind fun operand => .pure (op, operand)

theorem binary_agrees (ops : List BinaryOp) {p p' : Parser Expr} (h : p.Agrees d d' p') :
    (binary ops p).Agrees d d' (binary ops p') := by
  have hoperator : (binaryOp ops).Agrees d d' (binaryOp ops) :=
    operator_agrees BinaryOp.symbol ops
  have hnext := hoperator.spaced.bind fun op => h.spaced.committed.bind fun right =>
    Agrees.pure (op, right)
  exact h.bind fun head => hnext.many.bind fun rest => .pure _

theorem binaries_agrees (hle : d ≤ d') (h : inner.Agrees d d' inner') :
    (binaries inner).Agrees d d' (binaries inner') := by
  unfold binaries
  induction BinaryOp.levels with
  | nil => exact unary_agrees hle h
  | cons ops levels ih => exact binary_agrees ops ih

theorem assignment_agrees (hle : d ≤ d') (h : inner.Agrees d d' inner') :
    (assignment inner).Agrees d d' (assignment inner') := by
  have hsign : assignSign.Agrees d d' assignSign := (Blind.literalBefore _ _).agrees
  have hvalue := hsign.spaced.seqRight (Agrees.deeper hle h.assignment).spaced.committed
  apply Agrees.describedAs
  apply Agrees.choice
  refine .cons (Agrees.mapSpan ?_ _) (.cons (binaries_agrees hle h) .nil)
  exact name_agrees.bind fun target => hvalue.bind fun value => .pure (target, value)

theorem InnerExpr.ofLevels_agrees {m n : Nat} (hle : d ≤ d') (hm : m = (maxDepth - d).toNat)
    (hn : n = (maxDepth - d').toNat) : (InnerExpr.ofLevels m).Agrees d d' (.ofLevels n) := by
  -- the deeper run has fewer levels left, and so runs out of them first
  induction n generalizing m d d' with
  | zero =>
    have hd : ¬ d' < maxDepth := by omega
    exact ⟨fun h => absurd h hd, fun h => absurd h hd⟩
  | succ n ih =>
    cases m with
    | zero => omega
    | succ m =>
      have hle' : d + 1 ≤ d' + 1 := by omega
      have hinner := ih (m := m) hle' (by omega) (by omega)
      exact ⟨fun _ => assignment_agrees hle' hinner, fun _ => unary_agrees hle' hinner⟩

theorem expression_agrees (hle : d ≤ d') : expression.Agrees d d' expression := by
  intro s i
  have hinner := InnerExpr.ofLevels_agrees (m := Cursor.room ⟨i, d⟩) (n := Cursor.room ⟨i, d'⟩)
    hle rfl rfl
  exact (assignment_agrees hle hinner).labelled "expression" s i

end Expressions

/-- The rules that statements use one level further in give the same there. -/
structure InnerStmt.Agrees (d d' : Int) (inner inner' : InnerStmt) : Prop where
  statement : d' < maxDepth → inner.statement.Agrees (d + 1) (d' + 1) inner'.statement
  conditional : d' < maxDepth → inner.conditional.Agrees (d + 1) (d' + 1) inner'.conditional

section Statements

variable {inner inner' : InnerStmt}

theorem semicolon_agrees : semicolon.Agrees d d' semicolon := (literal_agrees _).spaced

/-- The end of statements is looked for without regard to the depth, so a statement at the limit is
not taken for it. -/
theorem statementsUntil_agrees {p p' : Parser Stmt} {terminator : Parser α}
    (hp : p.Agrees d d' p') (ht : terminator.Blind d d') (expected : Text) :
    (statementsUntil p terminator expected).Agrees d d'
      (statementsUntil p' terminator expected) := by
  have hwithin (n : Nat) : (statementsWithin p (attempt terminator) expected n).Agrees d d'
      (statementsWithin p' (attempt terminator) expected n) := by
    induction n with
    | zero => exact fun _ _ => .failed _
    | succ n ih =>
      apply Agrees.spaced
      intro s i
      dsimp only
      obtain ⟨j, found, h, h'⟩ | ⟨f, h, h'⟩ := ht.attempt s i
      · rw [h, h']
        cases found with
        | some a => exact .ok j []
        | none =>
          unfold Cursor.atEnd
          dsimp only
          split
          · exact .failed _
          have hst := hp s i
          generalize p s ⟨i, d⟩ = x, p' s ⟨i, d'⟩ = x' at hst ⊢
          cases hst with
          | ok k head =>
            have hrest := ih s k
            dsimp only
            generalize statementsWithin p (attempt terminator) expected n s ⟨k, d⟩ = y,
              statementsWithin p' (attempt terminator) expected n s ⟨k, d'⟩ = y' at hrest ⊢
            cases hrest with
            | ok l tail => exact .ok l _
            | failed f => exact .failed f
            | limit hcom hcause => exact .limit hcom hcause
          | failed f => exact .failed f
          | limit hcom hcause => exact .limit hcom hcause
      · rw [h, h']
        exact .failed f
  exact fun s i => hwithin _ s i

theorem blockWith_agrees (hle : d ≤ d') (h : inner.Agrees d d' inner') :
    (blockWith inner).Agrees d d' (blockWith inner') := by
  have hbody := Agrees.deeper hle fun hd =>
    statementsUntil_agrees (h.statement hd) (.literal "\x7d") "\x7d"
  exact (((literal_agrees "\x7b").seqRight hbody.committed).mapSpan _).labelled _

theorem elseWith_agrees (hle : d ≤ d') (h : inner.Agrees d d' inner') :
    (elseWith inner).Agrees d d' (elseWith inner') := by
  have hchoice : Agrees d d' (choice [blockWith inner, (fun stmt => .mk [stmt] stmt.span) <$>
      deeper inner.conditional]) (choice [blockWith inner', (fun stmt => .mk [stmt] stmt.span) <$>
      deeper inner'.conditional]) :=
    .choice <| .cons (blockWith_agrees hle h) <|
      .cons ((Agrees.deeper hle h.conditional).map _) .nil
  exact (keyword_agrees "else").spaced.seqRight hchoice.spaced.committed

theorem keyword_statement_agrees {p p' : Parser α} (hp : p.Agrees d d' p') (label word : Text)
    (g : α → Span → Stmt) :
    (labelled label (mapSpan (keyword word *> committed p) g)).Agrees d d'
      (labelled label (mapSpan (keyword word *> committed p') g)) :=
  (((keyword_agrees word).seqRight hp.committed).mapSpan g).labelled label

theorem conditionalWith_agrees (hle : d ≤ d') (h : inner.Agrees d d' inner') :
    (conditionalWith inner).Agrees d d' (conditionalWith inner') :=
  keyword_statement_agrees ((expression_agrees hle).spaced.bind fun _ =>
    (blockWith_agrees hle h).spaced.bind fun _ =>
      (elseWith_agrees hle h).optional.bind fun _ => .pure _) _ _ _

theorem whileWith_agrees (hle : d ≤ d') (h : inner.Agrees d d' inner') :
    (whileWith inner).Agrees d d' (whileWith inner') :=
  keyword_statement_agrees ((expression_agrees hle).spaced.bind fun _ =>
    (blockWith_agrees hle h).spaced.bind fun _ => .pure _) _ _ _

theorem loopWith_agrees (hle : d ≤ d') (h : inner.Agrees d d' inner') :
    (loopWith inner).Agrees d d' (loopWith inner') :=
  keyword_statement_agrees (blockWith_agrees hle h).spaced _ _ _

theorem breakLoop_agrees : breakLoop.Agrees d d' breakLoop :=
  keyword_statement_agrees semicolon_agrees _ _ _

theorem continueLoop_agrees : continueLoop.Agrees d d' continueLoop :=
  keyword_statement_agrees semicolon_agrees _ _ _

theorem returnValue_agrees (hle : d ≤ d') : returnValue.Agrees d d' returnValue :=
  keyword_statement_agrees ((expression_agrees hle).spaced.optional.seqLeft semicolon_agrees) _ _ _

theorem letBinding_agrees (hle : d ≤ d') : letBinding.Agrees d d' letBinding := by
  have hvalue : initializer.Agrees d d' initializer :=
    ((literal_agrees _).spaced.seqRight (expression_agrees hle).spaced.committed).optional
  exact keyword_statement_agrees (identifier_agrees.spaced.bind fun name =>
    (hvalue.seqLeft semicolon_agrees).bind fun init => .pure _) _ _ _

theorem constBinding_agrees (hle : d ≤ d') : constBinding.Agrees d d' constBinding := by
  have hvalue := ((literal_agrees "=").spaced.seqRight (expression_agrees hle).spaced).seqLeft
    semicolon_agrees
  exact keyword_statement_agrees (identifier_agrees.spaced.bind fun name =>
    hvalue.bind fun init => .pure _) _ _ _

theorem parameters_agrees : parameters.Agrees d d' parameters :=
  .between ((literal_agrees _).seqRight .trivia) (identifier_agrees.sepBy comma_agrees)
    (literal_agrees _).spaced

theorem functionWith_agrees (hle : d ≤ d') (h : inner.Agrees d d' inner') :
    (functionWith inner).Agrees d d' (functionWith inner') :=
  keyword_statement_agrees (identifier_agrees.spaced.bind fun _ =>
    parameters_agrees.spaced.bind fun _ =>
      (blockWith_agrees hle h).spaced.bind fun _ => .pure _) _ _ _

theorem expressionStmt_agrees (hle : d ≤ d') : expressionStmt.Agrees d d' expressionStmt :=
  (((expression_agrees hle).seqLeft semicolon_agrees).mapSpan _).labelled _

theorem statementWith_agrees (hle : d ≤ d') (h : inner.Agrees d d' inner') :
    (statementWith inner).Agrees d d' (statementWith inner') :=
  .choice <| .cons ((blockWith_agrees hle h).map _) <| .cons (conditionalWith_agrees hle h) <|
    .cons (whileWith_agrees hle h) <| .cons (loopWith_agrees hle h) <| .cons breakLoop_agrees <|
    .cons continueLoop_agrees <| .cons (returnValue_agrees hle) <| .cons (letBinding_agrees hle) <|
    .cons (constBinding_agrees hle) <| .cons (functionWith_agrees hle h) <|
    .cons (expressionStmt_agrees hle) .nil

theorem InnerStmt.ofLevels_agrees {m n : Nat} (hle : d ≤ d') (hm : m = (maxDepth - d).toNat)
    (hn : n = (maxDepth - d').toNat) : (InnerStmt.ofLevels m).Agrees d d' (.ofLevels n) := by
  induction n generalizing m d d' with
  | zero =>
    have hd : ¬ d' < maxDepth := by omega
    exact ⟨fun h => absurd h hd, fun h => absurd h hd⟩
  | succ n ih =>
    cases m with
    | zero => omega
    | succ m =>
      have hle' : d + 1 ≤ d' + 1 := by omega
      have hinner := ih (m := m) hle' (by omega) (by omega)
      exact ⟨fun _ => statementWith_agrees hle' hinner, fun _ => conditionalWith_agrees hle' hinner⟩

theorem atLevel_depthFree {rule : InnerStmt → Parser α}
    (h : ∀ {d d' : Int} {inner inner' : InnerStmt}, d ≤ d' → inner.Agrees d d' inner' →
      (rule inner).Agrees d d' (rule inner')) : (atLevel rule).DepthFree := by
  apply DepthFree.of_agrees
  intro d d' hle s i
  have hinner := InnerStmt.ofLevels_agrees (m := Cursor.room ⟨i, d⟩) (n := Cursor.room ⟨i, d'⟩)
    hle rfl rfl
  exact h hle hinner s i

end Statements

/-- The depth of nesting changes nothing but the limit, for expressions, blocks and every kind of
statement. -/
theorem rules_depthFree :
    expression.DepthFree ∧ statement.DepthFree ∧ block.DepthFree ∧ conditional.DepthFree ∧
    whileLoop.DepthFree ∧ loop.DepthFree ∧ breakLoop.DepthFree ∧ continueLoop.DepthFree ∧
    returnValue.DepthFree ∧ letBinding.DepthFree ∧ constBinding.DepthFree ∧ function.DepthFree ∧
    expressionStmt.DepthFree := by
  refine ⟨.of_agrees fun _ _ => expression_agrees, atLevel_depthFree statementWith_agrees,
    atLevel_depthFree blockWith_agrees, atLevel_depthFree conditionalWith_agrees,
    atLevel_depthFree whileWith_agrees, atLevel_depthFree loopWith_agrees,
    .of_agrees fun _ _ _ => breakLoop_agrees, .of_agrees fun _ _ _ => continueLoop_agrees,
    .of_agrees fun _ _ => returnValue_agrees, .of_agrees fun _ _ => letBinding_agrees,
    .of_agrees fun _ _ => constBinding_agrees, atLevel_depthFree functionWith_agrees,
    .of_agrees fun _ _ => expressionStmt_agrees⟩

end Grammar

end BrookSyntax
