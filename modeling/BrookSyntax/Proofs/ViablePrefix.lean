import BrookSyntax.Proofs.ExprViability
import BrookSyntax.Proofs.StartOffset

namespace BrookSyntax

open BrookSyntax.Parser Phrases Source
open scoped Computability

namespace Grammar

section Statements

variable {α : Type} {inner : InnerStmt}

/-- The rules that statements use further in follow statements. -/
structure InnerStmt.Follows (inner : InnerStmt) : Prop where
  statement : inner.statement.Follows stmt
  conditional : inner.conditional.Follows Phrases.conditional

section Sequences

variable {statement : Parser Stmt} {terminator : Parser α} {K : Language Token} {expected : Text}
  {fuel : Nat} {s : Source} {c d : Cursor}

theorem stmt_mul_le : stmt * (stmt∗ * K) ≤ stmt∗ * K := by
  rw [← mul_assoc]
  exact mul_le_mul_left mul_kstar_le_kstar K

theorem statementsWithin_mem {n : Nat} {stmts : List Stmt} (h : statement.Follows stmt)
    (ht : terminator.Follows K) (hK : [] ∉ K) (hc : c.offset ≤ s.length) (hn : c.room = n)
    (hok : statementsWithin statement (attempt terminator) expected fuel s c = .ok d stmts) :
    d.depth = c.depth ∧ ∃ ts, s.LexedAfter c.offset ts d.offset ∧ ts ∈ stmt∗ * K := by
  induction fuel generalizing c stmts with
  | zero => cases hok
  | succ fuel ih =>
    obtain ⟨a, ha, rfl⟩ | ⟨-, -, e, head, tail, hst, htail, rfl⟩ :=
      statementsWithin_succ_eq_ok.1 hok
    · have hend := attempt_eq_ok_some.1 ha
      obtain ⟨hd, ts, hl, hts⟩ := (ht.spaced hK).reads n hc hn hend
      exact ⟨hd, ts, hl, Language.append_mem_mul (Language.nil_mem_kstar _) hts⟩
    · have hstmt := h.spaced nil_notMem_stmt
      obtain ⟨he, ts, hl, hts⟩ := hstmt.reads n hc hn hst
      obtain ⟨hd, us, hl', hus⟩ := ih (hl.bounds hc).2 ((Cursor.room_congr he).trans hn) htail
      exact ⟨hd.trans he, ts ++ us, hl.append hl',
        stmt_mul_le (Language.append_mem_mul hts hus)⟩

/-- Statements whose end is not found fail at the end of a beginning of statements. -/
theorem statementsWithin_viable {f : Failure} (h : statement.Follows stmt) (hK : Writable K)
    (hc : c.offset ≤ s.length)
    (hf : statementsWithin statement (attempt terminator) expected fuel s c = .failed f) :
    s.Viable (stmt∗ * K) c.offset f.offset := by
  have hwritable : Writable (stmt∗ * K) := (Writable.kstar _).mul hK
  induction fuel generalizing c with
  | zero =>
    cases hf
    exact .here hc hwritable
  | succ fuel ih =>
    have hlen := skip_le hc
    apply Viable.after_trivia _ hc
    obtain hend | ⟨-, ⟨-, rfl⟩ | ⟨-, hst | ⟨e, head, hst, htail⟩⟩⟩ :=
      statementsWithin_succ_failed hf
    · exact absurd hend attempt_ne_failed
    · exact .here hlen hwritable
    · exact ((h.viable (c := ⟨_, c.depth⟩) hlen hst).append hwritable).mono stmt_mul_le
    · obtain ⟨-, ts, hl, hts⟩ := h.reads _ (c := ⟨_, c.depth⟩) hlen rfl hst
      exact ((ih (hl.bounds hlen).2 htail).after hl hlen hts).mono stmt_mul_le

theorem statementsUntil_follows (h : statement.Follows stmt) (ht : terminator.Follows K)
    (hK : [] ∉ K) (expected : Text) :
    (statementsUntil statement terminator expected).Follows (stmt∗ * K) where
  writable := (Writable.kstar _).mul ht.writable
  reads _ _ _ _ _ hc hn hok := statementsWithin_mem h ht hK hc hn hok
  viable _ _ _ hc hf := statementsWithin_viable h ht.writable hc hf

end Sequences

theorem blockWith_follows (h : inner.Follows) : (blockWith inner).Follows Phrases.block := by
  apply Follows.labelled
  have hclose := Follows.literal (m := "\x7d") (by decide)
  have hbody := statementsUntil_follows h.statement hclose (nil_notMem_token _) "\x7d"
  exact (((Follows.literal (m := "\x7b") (by decide)).seqRight hbody.deeper.committed).mapSpan
    _).mono block_le

theorem else_follows (h : inner.Follows) :
    (Parser.optional (elseWith inner)).Follows elseBranch := by
  have hkeyword := (Follows.keyword (w := "else") (by decide)).spaced (nil_notMem_token _)
  have hbody : (choice [blockWith inner,
      (fun stmt => .mk [stmt] stmt.span) <$> deeper inner.conditional]).Follows
        (Phrases.block + Phrases.conditional) := by
    apply Follows.choice (block_writable.mono le_self_add)
    simp only [List.forall_mem_cons, List.not_mem_nil, false_implies, implies_true, and_true]
    exact ⟨(blockWith_follows h).mono le_self_add, (h.conditional.deeper.map _).mono le_add_self⟩
  have hne : [] ∉ Phrases.block + Phrases.conditional := by
    rintro (hnil | hnil)
    · exact nil_notMem_block hnil
    · exact nil_notMem_stmt (conditional_le_stmt hnil)
  exact (hkeyword.seqRight (hbody.spaced hne).committed).optional.mono else_le

theorem keyword_statement_follows {p : Parser α} {L M : Language Token} {w : Text}
    (hp : p.Follows L) (hw : w ∈ keywords) (hle : Phrases.keyword w * L ≤ M) (label : Text)
    (g : α → Span → Stmt) :
    (labelled label (mapSpan (keyword w *> committed p) g)).Follows M := by
  apply Follows.labelled
  exact (((Follows.keyword hw).seqRight hp.committed).mapSpan g).mono hle

theorem spaced_expression_follows : (spaced expression).Follows (expr 1) :=
  expression_follows.spaced (nil_notMem_expr 1)

theorem spaced_block_follows (h : inner.Follows) :
    (spaced (blockWith inner)).Follows Phrases.block :=
  (blockWith_follows h).spaced nil_notMem_block

theorem spaced_identifier_follows : (spaced identifier).Follows Phrases.name :=
  identifier_follows.spaced nil_notMem_name

theorem semicolon_follows : semicolon.Follows (mark ";") :=
  (Follows.literal (by decide)).spaced (nil_notMem_token _)

theorem conditionalWith_follows (h : inner.Follows) :
    (conditionalWith inner).Follows Phrases.conditional := by
  have hbody := spaced_expression_follows.bind fun condition =>
    (spaced_block_follows h).bind fun thenBlock => (else_follows h).bind fun elseBlock =>
      Follows.pure (condition, thenBlock, elseBlock)
  rw [mul_one] at hbody
  exact keyword_statement_follows hbody (by decide) conditional_le _ _

theorem whileWith_follows (h : inner.Follows) : (whileWith inner).Follows stmt := by
  have hbody := spaced_expression_follows.bind fun condition =>
    (spaced_block_follows h).bind fun body => Follows.pure (condition, body)
  rw [mul_one] at hbody
  exact keyword_statement_follows hbody (by decide) while_le _ _

theorem returnValue_follows : returnValue.Follows stmt := by
  have hbody := (spaced_expression_follows.optional.mono optional_le).seqLeft semicolon_follows
  exact keyword_statement_follows hbody (by decide) return_le _ _

/-- The sign before a value that is bound. It may be the beginning of the sign of an equality, and
then no value follows it. -/
theorem bound_follows {p : Parser Expr} (hp : p.Follows (expr 1)) :
    (spaced (literal "=") *> p).Follows (mark "=" * expr 1) := by
  have hmark : (literal "=" *> p).Follows (mark "=" * expr 1) := by
    refine Follows.bind_mark (mark_writable (by decide)) (FailsHere.literal "=") ?_ (fun _ => hp)
      (expr_avoidsSign 1)
    intro s c d t hc hok
    obtain ⟨hat, hd, -⟩ := (literal_eq_ok hc).1 hok
    exact ⟨"=", by decide, by decide, hat, hd, le_refl _⟩
  exact hmark.spaced (nil_notMem_mul (nil_notMem_token _) _)

theorem letBinding_follows : letBinding.Follows stmt := by
  have hinit := (bound_follows spaced_expression_follows.committed).optional.mono init_le
  have hbody := spaced_identifier_follows.bind fun word =>
    (hinit.seqLeft semicolon_follows).bind fun init => Follows.pure (word, init)
  rw [mul_one] at hbody
  exact keyword_statement_follows hbody (by decide) let_le _ _

theorem constBinding_follows : constBinding.Follows stmt := by
  have hbody := spaced_identifier_follows.bind fun word =>
    ((bound_follows spaced_expression_follows).seqLeft semicolon_follows).bind fun init =>
      Follows.pure (word, init)
  rw [mul_one, mul_assoc (mark "=")] at hbody
  exact keyword_statement_follows hbody (by decide) const_le _ _

theorem parameters_follows : parameters.Follows (mark "(" * (params * mark ")")) := by
  have hparams := (identifier_follows.sepBy nil_notMem_name).mono params_le
  have hbody := hparams.closed (m := ")") (by decide)
  have hrule := (Follows.literal (m := "(") (by decide)).seqRight hbody
  have heq : parameters = literal "(" *>
      between trivia (sepBy identifier comma) (spaced (literal ")")) := by
    funext s c
    simp only [parameters, between, seqLeft_apply, seqRight_apply]
    cases literal "(" s c <;> rfl
  rwa [heq]

theorem functionWith_follows (h : inner.Follows) : (functionWith inner).Follows stmt := by
  have hparams := parameters_follows.spaced (nil_notMem_mul (nil_notMem_token _) _)
  have hbody := spaced_identifier_follows.bind fun word => hparams.bind fun params =>
    (spaced_block_follows h).bind fun body => Follows.pure (word, params, body)
  simp only [mul_one, mul_assoc] at hbody
  exact keyword_statement_follows hbody (by decide) function_le _ _

theorem expressionStmt_follows : expressionStmt.Follows stmt := by
  apply Follows.labelled
  exact ((expression_follows.seqLeft semicolon_follows).mapSpan _).mono expression_le

theorem statementWith_follows (h : inner.Follows) : (statementWith inner).Follows stmt := by
  apply Follows.choice stmt_writable
  simp only [List.forall_mem_cons, List.not_mem_nil, false_implies, implies_true, and_true]
  refine ⟨?_, ?_, whileWith_follows h, ?_, ?_, ?_, returnValue_follows, letBinding_follows,
    constBinding_follows, functionWith_follows h, expressionStmt_follows⟩
  · exact ((blockWith_follows h).map _).mono block_le_stmt
  · exact (conditionalWith_follows h).mono conditional_le_stmt
  · exact keyword_statement_follows (spaced_block_follows h) (by decide) loop_le _ _
  · exact keyword_statement_follows semicolon_follows (by decide) break_le _ _
  · exact keyword_statement_follows semicolon_follows (by decide) continue_le _ _

theorem InnerStmt.ofLevels_follows (n : Nat) : (InnerStmt.ofLevels n).Follows := by
  induction n with
  | zero => exact ⟨.tooDeep stmt_writable, .tooDeep conditional_writable⟩
  | succ n ih => exact ⟨statementWith_follows ih, conditionalWith_follows ih⟩

theorem statement_follows : statement.Follows stmt :=
  .of_room fun n => statementWith_follows (InnerStmt.ofLevels_follows n)

end Statements

theorem program_viable {s : Source} {c : Cursor} {f : Failure} (hc : c.offset ≤ s.length)
    (hf : program s c = .failed f) : s.Viable stmts c.offset f.offset := by
  obtain ⟨g, hg, rfl⟩ := labelled_eq_failed.1 hf
  have h := statementsWithin_viable statement_follows .one hc (mapSpan_eq_failed.1 hg)
  rw [mul_one] at h
  exact h.mono stmts_le

/-- The grammar derives the text as a program, however deeply constructs are nested in it. -/
def Derivable (t : Text) : Prop :=
  ∃ k ts m stmts, (Source.ofText t).LexedAfter 0 ts m ∧ (Source.ofText t).TriviaAt m t.length ∧
    DerivesStmts k ts stmts

theorem derivable_of_viable {s : Source} {n : Nat} (h : s.Viable stmts 0 n) :
    ∃ t, Derivable (s.text.take n ++ t) := by
  obtain ⟨-, -, ts, kinds, hext, hcomp⟩ := h
  obtain ⟨t, us, m, hus, hl, ht⟩ := hext.complete
  obtain ⟨k, statements, hs⟩ := hcomp us hus
  exact ⟨t, k, ts ++ us, m, statements, hl, ht, hs⟩

/-- What stands from the start of a program up to its failure can be continued to a text that the
grammar derives. So the failure is not beyond any offset up to which the text is already wrong,
whatever follows. -/
theorem program_failure_viable {s : Source} {c : Cursor} {f : Failure} (hc : c.offset ≤ s.length)
    (hf : program s c = .failed f) :
    (∃ t, Derivable (s.slice c.offset f.offset ++ t)) ∧
      ∀ n, (∀ t, ¬ Derivable (s.slice c.offset n ++ t)) → f.offset < n := by
  have hviable : ∃ t, Derivable (s.slice c.offset f.offset ++ t) := by
    -- The text from the start offset on is a source of its own.
    have hrest : s.Rest (ofText (s.text.drop c.offset)) c.offset := ⟨rfl, hc⟩
    have hcarry := program_carries hrest ⟨0, c.depth⟩
    have hstart : Cursor.carry c.offset ⟨0, c.depth⟩ = c := by rw [Cursor.carry, Nat.zero_add]
    rw [hstart, hf] at hcarry
    cases hg : program (ofText (s.text.drop c.offset)) ⟨0, c.depth⟩ with
    | ok d p =>
      rw [hg] at hcarry
      cases hcarry
    | failed g =>
      rw [hg] at hcarry
      cases hcarry
      obtain ⟨t, ht⟩ := derivable_of_viable (program_viable (Nat.zero_le _) hg)
      have hslice := hrest.slice (i := 0) (j := g.offset)
      rw [Nat.zero_add, slice_eq (ofText _), List.drop_zero] at hslice
      refine ⟨t, ?_⟩
      change Derivable (s.slice c.offset (g.offset + c.offset) ++ t)
      rwa [hslice]
  refine ⟨hviable, fun n hn => Nat.lt_of_not_le fun hle => ?_⟩
  obtain ⟨t, ht⟩ := hviable
  have hshorter : s.slice c.offset n <+: s.slice c.offset f.offset := by
    rw [slice_eq, slice_eq]
    exact (List.take_prefix_take_left hle).drop c.offset
  obtain ⟨u, hu⟩ := hshorter
  rw [← hu, List.append_assoc] at ht
  exact hn _ ht

theorem program_failure_viable_escape :
    0 ≤ (ofText "x = \"a\\q\";").length ∧
      ∃ f, program (ofText "x = \"a\\q\";") ⟨0, 0⟩ = .failed f ∧ f.offset = 7 ∧
        ∃ t, Derivable ("x = \"a\\" ++ t) := by
  have hfailed : program (ofText "x = \"a\\q\";") ⟨0, 0⟩ = .failed
      { cause := .token "escape sequence", offset := 7,
        frames := [⟨"expression", 0⟩, ⟨"expression_statement", 0⟩, ⟨"program", 0⟩],
        committed := true } := by rfl
  exact ⟨Nat.zero_le _, _, hfailed, rfl, (program_failure_viable (Nat.zero_le _) hfailed).1⟩

end Grammar

end BrookSyntax
