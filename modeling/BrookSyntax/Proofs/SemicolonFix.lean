import BrookSyntax.Diagnostic.OfFailure
import BrookSyntax.Proofs.Completeness
import BrookSyntax.Proofs.MissingSemicolon
import BrookSyntax.Proofs.TokenUniqueness

namespace BrookSyntax

namespace Source

variable {s : Source} {i m n : Nat} {ts : List Token} {t : Text}

/-- The source with a text put in at an offset. -/
def insert (s : Source) (i : Nat) (t : Text) : Source :=
  ofText (s.text.take i ++ (t ++ s.text.drop i))

theorem length_insert (hi : i ≤ s.length) : (s.insert i t).length = s.length + t.length := by
  rw [length_eq] at hi
  rw [insert, length_ofText, List.length_append, List.length_append, List.length_take,
    List.length_drop, Nat.min_eq_left hi, length_eq]
  omega

theorem hasAt_insert (hi : i ≤ s.length) : (s.insert i t).hasAt i t = true :=
  s.hasAt_take_append hi t _

theorem copied_insert (hn : n ≤ s.length) : s.Copied (s.insert n ";") 0 n 0 :=
  s.copied_take hn rfl

theorem tokenAt_insert (hn : n ≤ s.length) :
    (s.insert n ";").TokenAt n (.mark ";") (n + 1) := by
  have hplain : PlainMark ";" := by decide
  exact tokenAt_plain_mark hplain.1 (hasAt_insert hn) hplain.2

/-- The trivia before an added semicolon is still trivia, if it is not a comment that goes on with
the semicolon. -/
theorem triviaAt_insert (hm : m ≤ s.length) (hskip : s.skip m = n)
    (hend : ¬ (n = s.length ∧ s.EndsInComment m s.length)) : (s.insert n ";").TriviaAt m n := by
  have htrivia := triviaAt_skip hm
  have hspace := (noTriviaAt_skip hm).space
  have hn := skip_le hm
  rw [hskip] at htrivia hspace hn
  apply (copied_insert hn).triviaAt_start htrivia (Nat.le_refl n) (.refl n)
  intro hcomment
  obtain rfl | hline := hcomment.endsLine
  · exact absurd ⟨rfl, hcomment⟩ hend
  · rw [hline] at hspace
    cases hspace

/-- A semicolon added to a comment that the end of the source ends is in the comment. -/
theorem triviaAt_insert_end (hm : m ≤ s.length) (hend : s.EndsInComment m s.length) :
    (s.insert s.length ";").TriviaAt m (s.insert s.length ";").length := by
  obtain ⟨k, htrivia, hcomment⟩ := hend
  have hk := hcomment.le
  have hlen : (s.insert s.length ";").length = s.length + 1 := length_insert (Nat.le_refl _)
  have hcopied : s.Copied (s.insert s.length ";") 0 s.length 0 := copied_insert (Nat.le_refl _)
  have hbefore := hcopied.triviaAt_inside htrivia (Nat.zero_le m) (by omega) hm
  have hinside : ∀ l, s.length ≤ l → l < s.length + 1 →
      (s.insert s.length ";").unit? l ≠ some CodeUnit.newline := by
    intro l hl hl' hline
    obtain rfl : l = s.length := by omega
    obtain ⟨hunit, -⟩ := hasAt_cons.1 (hasAt_insert (t := ";") (Nat.le_refl s.length))
    rw [hunit, Option.some.injEq] at hline
    exact absurd hline (by decide)
  have hlast := hcopied.commentAt hcomment (Nat.zero_le k) (Nat.le_refl _)
    (by omega) (by rwa [Nat.zero_add, Nat.sub_zero]) (.inl hlen.symm)
  rw [Nat.zero_add, Nat.sub_zero] at hbefore hlast
  rw [Nat.zero_add, Nat.sub_zero] at hbefore
  rw [hlen]
  exact hbefore.trans (.comment hlast (.refl _))

end Source

namespace Grammar

open Source

variable {s : Source} {i m n : Nat} {ts : List Token}

theorem statement_insert (hi : i ≤ s.length) (hl : s.LexedAt i ts m) (hskip : s.skip m = n)
    (hts : LacksEnd 128 ts) (hend : ¬ (n = s.length ∧ s.EndsInComment m s.length)) :
    ∃ stmt, statement (s.insert n ";") ⟨i, 0⟩ = .ok ⟨n + 1, 0⟩ stmt := by
  have hm := (hl.bounds hi).2
  have hmn := le_skip hm
  have hn := skip_le hm
  rw [hskip] at hmn hn
  have hbefore := (copied_insert hn).lexedAt_start hl hmn hi
  have hlexed := hbefore.append (triviaAt_insert hm hskip hend) (.single (tokenAt_insert hn))
  have hlen : i ≤ (s.insert n ";").length := by
    rw [length_insert hn]
    omega
  obtain ⟨stmt, hst, hne⟩ := hts _
  exact ⟨stmt, statementWith_of_derives (c := ⟨i, 0⟩) (InnerStmt.ofLevels_complete 128) hlen rfl
    hlexed hst fun _ _ _ _ h => absurd h (hne _ _ _ _)⟩

/-- No statement is read beyond the tokens before a comment that swallows the semicolon. -/
theorem statement_insert_end {d : Cursor} {stmt : Stmt} (hi : i ≤ s.length)
    (hl : s.LexedAfter i ts m) (hend : s.EndsInComment m s.length)
    (hok : statement (s.insert s.length ";") ⟨i, 0⟩ = .ok d stmt) : d.offset ≤ m := by
  have hm := (hl.bounds hi).2
  have hlen : i ≤ (s.insert s.length ";").length := by
    rw [length_insert (Nat.le_refl _)]
    omega
  have hbefore := (copied_insert (Nat.le_refl s.length)).lexedAfter_start hl hm hi
  obtain ⟨-, us, hus, -⟩ := statement_reads (c := ⟨i, 0⟩) hlen rfl hok
  have hdlen := (hus.bounds hlen).2
  obtain ⟨vs, -, hvs⟩ := hus.after_here.prefix_of_all hbefore (triviaAt_insert_end hm hend) hlen
  exact (hvs.bounds hdlen).1

/-- The diagnostic of a program that lacks a semicolon proposes to add one where the failure is.
With it the innermost construct is read as a statement that ends there, except where the failure is
at the end of a source that ends in a comment. -/
theorem added_semicolon_ends (s : Source) {i : Nat} {f : Failure} (hi : i ≤ s.length)
    (h : program s ⟨i, 0⟩ = .failed f) (hcause : f.cause = .literal ";") :
    (Diagnostic.ofFailure f s).fixIts =
        [{ description := "Add ';'", span := .point (s.placeOf f.offset), replacement := ";" }] ∧
      ∃ frame, f.innermost? = some frame ∧
        ((∃ stmt, statement (s.insert f.offset ";") ⟨frame.offset, 0⟩ =
            .ok ⟨f.offset + 1, 0⟩ stmt) ↔
          ¬ (f.offset = s.length ∧
            ∃ ts m, s.LexedAfter frame.offset ts m ∧ s.EndsInComment m s.length)) := by
  have hfix : (Diagnostic.ofFailure f s).fixIts =
      [{ description := "Add ';'", span := .point (s.placeOf f.offset), replacement := ";" }] := by
    change f.cause.fixIts _ = _
    rw [hcause]
    rfl
  obtain ⟨frame, ts, m, hinner, hframe, hl, hskip, hts⟩ :=
    program_tells (c := ⟨i, 0⟩) hi (Nat.le_refl 128) h hcause
  refine ⟨hfix, frame, hinner, ?_, fun hend => ?_⟩
  · rintro ⟨stmt, hok⟩ ⟨hlen, us, k, hl', hend⟩
    have hk := (hl'.bounds hframe).2
    rw [hlen] at hok
    have hle : s.length + 1 ≤ k := statement_insert_end hframe hl' hend hok
    omega
  · apply statement_insert hframe hl hskip hts
    rintro ⟨hlen, hcomment⟩
    exact hend ⟨hlen, ts, m, hl.after_here, hcomment⟩

theorem added_semicolon_ends_break :
    ∃ f stmt, program (.ofText "break x") ⟨0, 0⟩ = .failed f ∧ f.cause = .literal ";" ∧
      (Diagnostic.ofFailure f (.ofText "break x")).fixIts.length = 1 ∧
      statement ((ofText "break x").insert f.offset ";") ⟨0, 0⟩ = .ok ⟨7, 0⟩ stmt := by
  have hfailed : program (.ofText "break x") ⟨0, 0⟩ = .failed
      { cause := .literal ";", offset := 6,
        frames := [⟨"break_statement", 0⟩, ⟨"program", 0⟩], committed := true } := by rfl
  obtain ⟨hfix, frame, hframe, hends⟩ :=
    added_semicolon_ends (.ofText "break x") (Nat.zero_le _) hfailed rfl
  cases hframe
  have hbefore : ¬ 6 = (ofText "break x").length := by decide
  obtain ⟨stmt, hok⟩ := hends.2 fun hend => hbefore hend.1
  exact ⟨_, stmt, hfailed, rfl, congrArg List.length hfix, hok⟩

/-- In `break // c` the semicolon that is added at the end is read as a part of the comment. -/
theorem added_semicolon_swallowed :
    ¬ ∀ (s : Source) (f : Failure) (frame : Frame), program s ⟨0, 0⟩ = .failed f →
      f.cause = .literal ";" → f.innermost? = some frame →
      ∃ stmt, statement (s.insert f.offset ";") ⟨frame.offset, 0⟩ = .ok ⟨f.offset + 1, 0⟩ stmt := by
  intro h
  have hfailed : program (.ofText "break // c") ⟨0, 0⟩ = .failed
      { cause := .literal ";", offset := 10,
        frames := [⟨"break_statement", 0⟩, ⟨"program", 0⟩], committed := true } := by rfl
  obtain ⟨stmt, hok⟩ := h _ _ _ hfailed rfl rfl
  have hstop : (statement ((ofText "break // c").insert 10 ";") ⟨0, 0⟩).stop? = none := by
    decide +kernel
  have hok : statement ((ofText "break // c").insert 10 ";") ⟨0, 0⟩ = .ok ⟨11, 0⟩ stmt := hok
  rw [hok] at hstop
  cases hstop

end Grammar

end BrookSyntax
