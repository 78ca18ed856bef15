import BrookSyntax.Proofs.OutcomeContract
import BrookSyntax.Proofs.StmtBlame

namespace BrookSyntax

/-- The signs and words that are tried but never missed by a program as a whole: what fails without
them is absorbed, or another cause is told in its place. -/
def absorbedLiterals : List Text :=
  BinaryOp.all.map BinaryOp.symbol ++ UnaryOp.all.map UnaryOp.symbol ++
    ([",", "\x7d", "else"] : List Text)

/-- The kinds of tokens that are tried but never missed by a program as a whole. -/
def absorbedTokens : List Text := ["number", "string", "end of input"]

/-- The cause is the lack of something that is never missed by a program as a whole. -/
def Cause.isAbsorbed : Cause → Bool
  | literal text => absorbedLiterals.contains text
  | token description => absorbedTokens.contains description
  | _ => false

namespace Failure.Listed

variable {s : Source} {f : Failure}

theorem surfaces (h : f.Listed s) : ∀ leaf ∈ f.cause.leaves, leaf.isAbsorbed = false := by
  cases h with
  | mark hc ht =>
    have hall : ∀ t ∈ ([";", ")", "(", "\x7b", "="] : List Text),
        ∀ leaf ∈ (Cause.literal t).leaves, leaf.isAbsorbed = false := by decide
    rw [hc]
    exact hall _ ht
  | token hc ht =>
    have hall : ∀ t ∈ (["identifier", "expression", "escape sequence", "finite number",
        "nesting depth <= 128"] : List Text),
        ∀ leaf ∈ (Cause.token t).leaves, leaf.isAbsorbed = false := by decide
    rw [hc]
    exact hall _ ht
  | openString hc _ | openBlock hc _ _ | statement hc | elseBranch hc =>
    rw [hc]
    decide

theorem code_ne_expectedKeyword (h : f.Listed s) : f.cause.code ≠ .expectedKeyword := by
  cases h with
  | mark hc ht =>
    have hnot : ∀ t ∈ ([";", ")", "(", "\x7b", "="] : List Text), t.isWord = false := by decide
    rw [hc, Cause.code, hnot _ ht]
    decide
  | token hc ht =>
    rw [hc, Cause.code]
    split
    · decide
    · split <;> decide
  | openString hc _ | openBlock hc _ _ | statement hc | elseBranch hc =>
    rw [hc]
    decide

end Failure.Listed

namespace Grammar

open BrookSyntax.Parser

theorem statement_consumes : statement.Consumes where
  wellBehaved := atLevel_wellBehaved fun _ => statementWith_wellBehaved
  moves _ c _ _ hc h := (statementWith_consumes (InnerStmt.ofLevels_wellBehaved c.room)).moves hc h

theorem statement_listed : statement.FailsListed := fun _ c _ hc h =>
  statementWith_listed (InnerStmt.ofLevels_fails c.room) hc h

/-- A program fails with one of its statements: at the end of the source it has ended. -/
theorem program_listed : program.FailsListed := by
  intro s c f hc h
  obtain ⟨g, hg, rfl⟩ := labelled_eq_failed.1 h
  obtain ⟨d, -, hd, ⟨e, hend⟩, ⟨hoffset, -⟩ | ⟨-, hst⟩⟩ := statementsWithin_failed
    statement_consumes.wellBehaved statement_consumes.moves hc (by omega) (mapSpan_eq_failed.1 hg)
  · have hat : d.atEnd s = true := by
      rw [Cursor.atEnd, hoffset]
      exact decide_eq_true (Nat.le_refl _)
    rw [endOfInput, if_pos hat] at hend
    cases hend
  · exact (statement_listed hd hst).within _ _

end Grammar

theorem Source.parse_eq_failed {s : Source} {offset : Double} {f : Failure}
    (h : s.parse offset = .ok (.failed f)) :
    ∃ n ≤ s.length, Grammar.program s ⟨n, 0⟩ = .failed f := by
  rw [parse, cursor] at h
  split at h
  · next i _ =>
    split at h
    · next hi =>
      injection h with h
      exact ⟨i.toNat, by omega, h⟩
    · cases h
  · cases h

theorem Source.diagnostics_of_outcome {s : Source} {offset : Double} {file : Option Text}
    {config : Config} {clock : Clock} {o : Outcome} {d : Diagnostic}
    (h : s.outcome offset file config clock = .ok o) (hd : d ∈ o.diagnostics) :
    ∃ f, s.parse offset = .ok (.failed f) ∧ d = .ofFailure f s := by
  rw [outcome] at h
  cases hparse : s.parse offset with
  | error e =>
    rw [hparse] at h
    cases h
  | ok result =>
    rw [hparse] at h
    cases h
    cases result with
    | ok e p => cases hd
    | failed f => exact ⟨f, rfl, List.mem_singleton.1 hd⟩

/-- A program fails only with the causes of the catalogue, and nothing that is absorbed is among
what it says was expected. So no diagnostic of a parse asks for a keyword alone. -/
theorem program_failure_listed (s : Source) :
    (∀ c f, c.offset ≤ s.length → Grammar.program s c = .failed f →
      f.Listed s ∧ ∀ leaf ∈ f.cause.leaves, leaf.isAbsorbed = false) ∧
    ∀ offset file config clock o, s.outcome offset file config clock = .ok o →
      ∀ d ∈ o.diagnostics, d.code ≠ .expectedKeyword := by
  refine ⟨fun c f hc h => ?_, fun offset file config clock o ho d hd => ?_⟩
  · have hlisted := Grammar.program_listed hc h
    exact ⟨hlisted, hlisted.surfaces⟩
  · obtain ⟨f, hparse, rfl⟩ := Source.diagnostics_of_outcome ho hd
    obtain ⟨n, hn, hfailed⟩ := Source.parse_eq_failed hparse
    exact (Grammar.program_listed (c := ⟨n, 0⟩) hn hfailed).code_ne_expectedKeyword

theorem program_failure_listed_break :
    ∃ f, Grammar.program (.ofText "break") ⟨0, 0⟩ = .failed f ∧ f.Listed (.ofText "break") ∧
      ∃ o, (Source.ofText "break").outcome .zero none {} ⟨"", .zero⟩ = .ok o ∧
        ∃ d ∈ o.diagnostics, d.code ≠ .expectedKeyword := by
  have hstop : (Grammar.program (.ofText "break") ⟨0, 0⟩).stop? = none := by decide +kernel
  have hcursor : (Source.ofText "break").cursor .zero = .ok ⟨0, 0⟩ :=
    Source.cursor_eq_ok (Nat.zero_le _) (by decide +kernel)
  cases h : Grammar.program (.ofText "break") ⟨0, 0⟩ with
  | ok d p =>
    rw [h] at hstop
    cases hstop
  | failed f =>
    obtain ⟨hfailure, houtcome⟩ := program_failure_listed (.ofText "break")
    have ho : ∃ o, (Source.ofText "break").outcome .zero none {} ⟨"", .zero⟩ = .ok o ∧
        o.diagnostics = [.ofFailure f (.ofText "break")] := by
      rw [Source.outcome, Source.parse, hcursor, Except.map, h]
      exact ⟨_, rfl, rfl⟩
    obtain ⟨o, ho, hd⟩ := ho
    have hmem : Diagnostic.ofFailure f (.ofText "break") ∈ o.diagnostics := by
      rw [hd]
      exact List.mem_singleton_self _
    exact ⟨f, rfl, (hfailure ⟨0, 0⟩ f (Nat.zero_le _) h).1, o, ho, _, hmem,
      houtcome .zero none {} ⟨"", .zero⟩ o ho _ hmem⟩

end BrookSyntax
