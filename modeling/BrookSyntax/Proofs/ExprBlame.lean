import BrookSyntax.Proofs.Blame
import BrookSyntax.Proofs.Soundness

namespace BrookSyntax

namespace Source

theorem stringFrom_failed {s : Source} {n i : Nat} {f : Failure} (hi : i ≤ s.length)
    (hn : s.length < i + n) (h : s.stringFrom n i = .error f) :
    f.committed = true ∧ f.Listed s := by
  obtain ⟨-, -, -, -, -, -, -, rfl | hf⟩ := stringFrom_eq_error hi hn h
  · exact ⟨rfl, .openString rfl rfl⟩
  · rw [hf]
    exact ⟨rfl, .token rfl (by decide)⟩

end Source

namespace Grammar

open BrookSyntax.Parser Source

/-- The failure says what its rule starts with, inside the frame of the rule. -/
abbrev Opens (cause : Cause) (label : Text) (_ : Source) (i : Nat) (f : Failure) : Prop :=
  f = { cause, offset := i, frames := [⟨label, i⟩] }

/-- No name stands at an offset. -/
def NoName (s : Source) (i : Nat) : Prop := ∀ w j, ¬ s.TokenAt i (.name w) j

theorem identifier_fails : identifier.FailsAs (Bare (.token "identifier")) := by
  intro s c f hc hf
  rw [identifier] at hf
  split at hf
  · split at hf
    · cases hf
      exact .inr ⟨rfl, rfl⟩
    · cases hf
  · next g hw =>
    cases hf
    obtain hf | ⟨d, a, -, hf⟩ := seqRight_eq_failed.1 (consumed_eq_failed.1 hw)
    · obtain rfl := satisfy_eq_failed hf
      exact .inr ⟨rfl, rfl⟩
    · cases hf

theorem name_fails : name.FailsAs fun s i f => Bare (.token "identifier") s i f ∧ NoName s i := by
  intro s c f hc hf
  have hnone : NoName s c.offset := by
    intro w j hj
    have hok : name s c = .ok ⟨j, c.depth⟩ ⟨w, c.spanTo ⟨j, c.depth⟩ s⟩ :=
      name_eq_ok.2 ⟨hj, rfl, rfl⟩
    rw [hok] at hf
    cases hf
  obtain hl | ⟨hopen, hbare⟩ := identifier_fails.mapSpan Name.mk hc hf
  · exact .inl hl
  · exact .inr ⟨hopen, hbare, hnone⟩

theorem satisfy_fails (test : CodeUnit → Bool) (description : Text) :
    (satisfy test description).FailsAs (Bare (.token description)) := by
  intro s c f hc hf
  obtain rfl := satisfy_eq_failed hf
  exact .inr ⟨rfl, rfl⟩

theorem takeWhile_fails (test : CodeUnit → Bool) : (takeWhile test).FailsCommitted :=
  fun _ _ _ _ hf => nomatch hf

theorem number_fails : number.FailsAs (Bare (.token "number")) := by
  have hfraction : (literal "." *> satisfy CodeUnit.isDigit "digit" *>
      takeWhile CodeUnit.isDigit).CommitsListed :=
    ((FailsAs.literal ".").commitsListed.seqRight (.literal _)
      (satisfy_fails _ _).commitsListed).seqRight ((WellBehaved.literal _).seqRight (.satisfy _ _))
      (takeWhile_fails _).commitsListed
  have hdigits := (satisfy_fails CodeUnit.isDigit "number").seqRight (.satisfy _ _)
    (takeWhile_fails CodeUnit.isDigit)
  have hnumeral := hdigits.seqRight ((WellBehaved.satisfy _ _).seqRight (.takeWhile _))
    hfraction.optional
  intro s c f hc hf
  rw [number] at hf
  split at hf
  · next g hg =>
    cases hf
    exact hnumeral hc (consumed_eq_failed.1 hg)
  · dsimp only at hf
    split at hf
    · cases hf
    · cases hf
      exact .inl ⟨rfl, .token rfl (by decide)⟩

theorem string_fails : string.FailsAs (Bare (.token "string")) := by
  intro s c f hc hf
  rw [string, Cursor.peek?] at hf
  split at hf
  · next hq =>
    split at hf
    · cases hf
    · next g hg =>
      cases hf
      exact .inl (stringFrom_failed (lt_length_of_unit? hq) (by omega) hg)
  · cases hf
    exact .inr ⟨rfl, rfl⟩

theorem constant_fails : constant.FailsAs fun _ i f => f.offset = i := by
  apply FailsAs.choice_here
  · simp only [List.forall_mem_cons, List.not_mem_nil, false_implies, implies_true, and_true]
    exact ⟨((FailsAs.keyword _).mapSpan _).here, ((FailsAs.keyword _).mapSpan _).here,
      ((FailsAs.keyword _).mapSpan _).here⟩
  · decide

/-- The failure of an expression that does not start where one is expected. -/
abbrev NoExpr : Source → Nat → Failure → Prop := Bare (.token "expression")

/-- The rules that expressions use further in fail for good or expect an expression. -/
structure InnerExpr.Fails (inner : InnerExpr) : Prop where
  assignment : inner.assignment.FailsAs NoExpr
  unary : inner.unary.FailsAs NoExpr

theorem NoExpr.listed {s : Source} {i : Nat} {f : Failure} (h : NoExpr s i f) : f.Listed s := by
  rw [h]
  exact .token rfl (by decide)

section Expressions

variable {inner : InnerExpr}

theorem close_listed : (spaced (literal ")")).FailsListed :=
  (FailsListed.literal (by decide)).spaced

theorem comma_commitsListed : comma.CommitsListed :=
  (FailsAs.literal ",").commitsListed.spaced.seqRight (WellBehaved.literal _).spaced
    FailsCommitted.trivia.commitsListed

theorem parenthesized_fails (h : inner.Fails) (hw : inner.WellBehaved) :
    (parenthesized inner).FailsAs (Bare (.literal "(")) := by
  have hinside := FailsListed.between FailsCommitted.trivia.listed .trivia
    (h.assignment.listed fun _ _ _ => NoExpr.listed) hw.assignment close_listed
  exact (FailsAs.literal "(").seqRight (.literal _) hinside.deeper.committed

theorem primary_fails (h : inner.Fails) (hw : inner.WellBehaved) :
    (primary inner).FailsAs fun s i f => f.offset = i ∧ NoName s i := by
  have hname := name_fails.map Expr.name
  have hhere : (primary inner).FailsAs fun _ i f => f.offset = i := by
    apply FailsAs.choice_here
    · simp only [List.forall_mem_cons, List.not_mem_nil, false_implies, implies_true, and_true]
      exact ⟨number_fails.here, string_fails.here, constant_fails,
        FailsAs.here (hname.imp fun _ _ _ h => h.1), (parenthesized_fails h hw).here⟩
    · simp
  apply (hhere.choice_of_mem (by simp) hname).imp
  rintro s i f ⟨hoffset, -, -, hnone⟩
  exact ⟨hoffset, hnone⟩

theorem arguments_fails (h : inner.Fails) (hw : inner.WellBehaved) :
    (arguments inner).FailsAs (Bare (.literal "(")) := by
  have hitems :=
    h.assignment.commitsListed.sepBy hw.assignment comma_commitsListed comma_wellBehaved
  have hinside := FailsListed.between FailsCommitted.trivia.listed .trivia hitems.listed
    (hw.assignment.sepBy comma_wellBehaved) close_listed
  exact (FailsAs.literal "(").seqRight (.literal _) hinside.deeper.committed

theorem called_fails (h : inner.Fails) (hw : inner.WellBehaved) :
    (called inner).FailsAs fun s i f => f.offset = i ∧ NoName s i := by
  have hcall := (arguments_wellBehaved hw).spaced.mapSpan fun args span => (args, span.stop)
  have hcalls := ((arguments_fails h hw).commitsListed.spaced.mapSpan fun args span =>
    (args, span.stop)).many hcall
  apply (primary_fails h hw).bind (primary_wellBehaved hw)
  intro head
  exact hcalls.bind hcall.many fun calls => .pure _

theorem unaryOp_fails : unaryOp.FailsAs fun _ i f => f.offset = i := by
  apply FailsAs.choice_here
  · intro p hp
    obtain ⟨op, -, rfl⟩ := List.mem_map.1 hp
    exact ((FailsAs.literal _).map _).here
  · decide

theorem binaryOp_commitsListed (ops : List BinaryOp) : (binaryOp ops).CommitsListed := by
  apply FailsAs.commitsListed (U := fun _ _ _ => True)
  refine .choice (fun p hp => ?_) fun _ _ _ _ _ => trivial
  obtain ⟨op, -, rfl⟩ := List.mem_map.1 hp
  exact ((FailsAs.literal _).map _).commitsListed

/-- Neither an expression starts at the offset of the failure nor a name. -/
abbrev NoOperand (s : Source) (i : Nat) (f : Failure) : Prop := NoExpr s i f ∧ NoName s i

theorem unary_fails (h : inner.Fails) (hw : inner.WellBehaved) :
    (unary inner).FailsAs NoOperand := by
  have hoperand : (committed (spaced (deeper inner.unary))).FailsCommitted :=
    (h.unary.listed fun _ _ _ => NoExpr.listed).deeper.spaced.committed
  have hcalled := called_fails h hw
  have hhere := FailsAs.choice_here [_, called inner]
    (List.forall_mem_cons.2 ⟨(unaryOp_fails.bind unaryOp_wellBehaved fun op =>
        hoperand.bind hw.unary.deeper.spaced.committed fun operand => .pure (op, operand)).mapSpan
          fun r span => .unary r.1 r.2 span,
      List.forall_mem_singleton.2 (hcalled.imp fun _ _ _ hf => hf.1)⟩) (by simp)
  apply FailsAs.describedAs (V := NoName)
  apply (hhere.choice_of_mem (by simp) hcalled).imp
  rintro s i f ⟨hoffset, -, -, hnone⟩
  exact ⟨hoffset, hnone⟩

theorem binary_fails (ops : List BinaryOp) {operand : Parser Expr}
    (h : operand.FailsAs NoOperand) (hw : operand.WellBehaved) :
    (binary ops operand).FailsAs NoOperand := by
  have hright := (h.listed fun _ _ _ hf => NoExpr.listed hf.1).spaced.committed
  have hop := (binaryOp_commitsListed ops).spaced
  have hop' := (binaryOp_wellBehaved ops).spaced
  have hnext := hop.bind hop' fun op => hright.commitsListed.bind hw.spaced.committed fun right =>
    (FailsCommitted.pure (op, right)).commitsListed
  have hnext' := hop'.bind fun op => hw.spaced.committed.bind fun right =>
    WellBehaved.pure (op, right)
  apply h.bind hw
  intro head
  exact (hnext.many hnext').bind hnext'.many fun rest => .pure _

theorem binaries_fails (h : inner.Fails) (hw : inner.WellBehaved) :
    (binaries inner).FailsAs NoOperand := by
  rw [binaries]
  generalize BinaryOp.levels = levels
  induction levels with
  | nil => exact unary_fails h hw
  | cons ops levels ih =>
    exact binary_fails ops ih (foldr_binary_wellBehaved levels (unary_wellBehaved hw))

/-- An abandoned attempt at an assignment is never what a failure tells of: after a name the other
rules go on. -/
theorem assignment_fails (h : inner.Fails) (hw : inner.WellBehaved) :
    (assignment inner).FailsAs NoExpr := by
  have hvalue := (h.assignment.listed fun _ _ _ => NoExpr.listed).deeper.spaced.committed
  have hsign :
      (spaced assignSign *> committed (spaced (deeper inner.assignment))).CommitsListed := by
    have hsign : assignSign.CommitsListed := by
      intro s c f hc hf hcom
      obtain ⟨-, rfl⟩ := literalBefore_eq_failed.1 hf
      cases hcom
    exact hsign.spaced.seqRight (WellBehaved.literalBefore _ _).spaced hvalue.commitsListed
  have hassign : (do
      let target ← name
      let value ← spaced assignSign *> committed (spaced (deeper inner.assignment))
      pure (target, value)).FailsAs fun s i f => NoName s i → f.offset = i := by
    have hafter (target : Name) : (do
        let value ← spaced assignSign *> committed (spaced (deeper inner.assignment))
        pure (target, value)).CommitsListed :=
      hsign.bind ((WellBehaved.literalBefore _ _).spaced.seqRight
        hw.assignment.deeper.spaced.committed) fun value =>
          (FailsCommitted.pure (target, value)).commitsListed
    intro s c f hc hf
    obtain hf | ⟨d, target, hname, hf⟩ := bind_eq_failed.1 hf
    · obtain hl | ⟨hopen, hbare, -⟩ := name_fails hc hf
      · exact .inl hl
      · exact .inr ⟨hopen, fun _ => by rw [hbare]⟩
    · cases hcom : f.committed with
      | true => exact .inl ⟨rfl, hafter target (name_wellBehaved.advances hc hname).2 hf hcom⟩
      | false => exact .inr ⟨rfl, fun hnone => absurd (name_eq_ok.1 hname).1 (hnone _ _)⟩
  have hbinaries := binaries_fails h hw
  have hwhere := FailsAs.choice_where [_, binaries inner] (H := NoName)
    (List.forall_mem_cons.2 ⟨hassign.mapSpan fun r span => .assign r.1 r.2 span,
      List.forall_mem_singleton.2 (hbinaries.imp fun _ _ _ hf _ => by rw [hf.1])⟩) (by simp)
  have hboth := hwhere.choice_of_mem (by simp) hbinaries
  have hdescribed := FailsAs.describedAs (V := fun _ _ => True)
    (hboth.imp fun s i f hf => by
      obtain ⟨hoffset, g, hg⟩ := hf
      exact ⟨hoffset hg.2, trivial⟩) "expression"
  exact hdescribed.imp fun _ _ _ hf => hf.1

theorem InnerExpr.ofLevels_fails (n : Nat) : (InnerExpr.ofLevels n).Fails := by
  induction n with
  | zero =>
    exact ⟨tooDeep_committed.imp fun _ _ _ h => h.elim, tooDeep_committed.imp fun _ _ _ h => h.elim⟩
  | succ n ih =>
    have hw := InnerExpr.ofLevels_wellBehaved n
    exact ⟨assignment_fails ih hw, (unary_fails ih hw).imp fun _ _ _ hf => hf.1⟩

/-- An expression fails for good, or it does not start where it is expected. -/
theorem expression_fails : expression.FailsAs (Opens (.token "expression") "expression") := by
  intro s c f hc hf
  have hassign := assignment_fails (InnerExpr.ofLevels_fails c.room)
    (InnerExpr.ofLevels_wellBehaved c.room)
  obtain hl | ⟨hopen, g, rfl, rfl⟩ := hassign.labelled "expression" hc hf
  · exact .inl hl
  · exact .inr ⟨hopen, rfl⟩

end Expressions

end Grammar

end BrookSyntax
