import BrookSyntax.Proofs.Completeness
import BrookSyntax.Proofs.Copied
import BrookSyntax.Proofs.Places
import BrookSyntax.Proofs.Soundness

namespace BrookSyntax

/-- The stretch some lines and units further on. -/
def Span.shift (lines units : Nat) (a : Span) : Span :=
  ⟨a.start.shift lines units, a.stop.shift lines units⟩

theorem Position.shift_inOrder (lines units : Nat) : InOrder (shift lines units) where
  le _ _ h := Nat.add_le_add_right h units
  lt _ _ h := .inl (Nat.add_lt_add_right h units)

def Respan.shift (lines units : Nat) : Respan :=
  .ofEnds _ _ (Position.shift_inOrder lines units) (Position.shift_inOrder lines units)

theorem DerivesStmts.append {k : Nat} {ts us : List Token} {stmts rest : List Stmt}
    (h : DerivesStmts k ts stmts) (h' : DerivesStmts k us rest) :
    DerivesStmts k (ts ++ us) (stmts ++ rest) := by
  induction stmts generalizing ts with
  | nil =>
    cases h
    exact h'
  | cons stmt stmts ih =>
    cases h with
    | cons hst hs =>
      rw [List.append_assoc]
      exact .cons hst (ih hs)

namespace Source

variable (a b : Text) {i j : Nat} {ts : List Token}

theorem copied_before_lines :
    (ofText a).Copied (ofText (a ++ CodeUnit.newline :: b)) 0 (0 + a.length) 0 :=
  .of_texts [] a [] [] (CodeUnit.newline :: b) (List.append_nil a).symm rfl rfl

theorem copied_after_lines :
    (ofText b).Copied (ofText (a ++ CodeUnit.newline :: b)) 0 (0 + b.length) (a.length + 1) := by
  have h : (ofText b).Copied (ofText (a ++ CodeUnit.newline :: b)) 0 (0 + b.length)
      (a ++ [CodeUnit.newline]).length :=
    .of_texts [] b [] (a ++ [CodeUnit.newline]) [] (List.append_nil b).symm (by simp [ofText]) rfl
  rwa [List.length_append, List.length_singleton] at h

theorem LexedAfter.before_lines (hl : (ofText a).LexedAfter i ts j) (hi : i ≤ a.length) :
    (ofText (a ++ CodeUnit.newline :: b)).LexedAfter i ts j := by
  have hlen : i ≤ (ofText a).length := by rwa [length_ofText]
  have hj : j ≤ a.length := by
    rw [← length_ofText a]
    exact (hl.bounds hlen).2
  exact (copied_before_lines a b).lexedAfter_start hl (by omega) hlen

/-- A comment that the end of a text ends is ended by the end of the line before further lines. -/
theorem TriviaAt.before_lines (ht : (ofText a).TriviaAt i a.length) :
    (ofText (a ++ CodeUnit.newline :: b)).TriviaAt i (a.length + 1) := by
  have hend : (ofText (a ++ CodeUnit.newline :: b)).unit? a.length = some CodeUnit.newline := by
    rw [unit?_eq]
    change (a ++ CodeUnit.newline :: b)[a.length]? = _
    rw [List.getElem?_append_right (Nat.le_refl _), Nat.sub_self]
    rfl
  have hline : (ofText (a ++ CodeUnit.newline :: b)).TriviaAt a.length (a.length + 1) :=
    .space hend rfl (.refl _)
  exact (copied_before_lines a b).triviaAt_start ht (by omega) hline fun _ =>
    EndsLine.thenTrivia (.inr hend) hline

theorem LexedAfter.after_lines (hl : (ofText b).LexedAfter i ts j) (hi : i ≤ b.length) :
    (ofText (a ++ CodeUnit.newline :: b)).LexedAfter (a.length + 1 + i)
      (ts.map (Token.mapSpan (Span.shift (a.count CodeUnit.newline + 1) (a.length + 1))))
      (a.length + 1 + j) := by
  have hlen : i ≤ (ofText b).length := by rwa [length_ofText]
  have hj : j ≤ b.length := by
    rw [← length_ofText b]
    exact (hl.bounds hlen).2
  have hcopy := copied_after_lines a b
  refine hcopy.lexedAfter (fun x y _ _ _ => ?_) hl (Nat.zero_le _) (by omega) hlen
  rw [Nat.sub_zero, Nat.sub_zero, position_after_lines, position_after_lines]
  rfl

theorem TriviaAt.after_lines (ht : (ofText b).TriviaAt i b.length) :
    (ofText (a ++ CodeUnit.newline :: b)).TriviaAt (a.length + 1 + i)
      (a.length + 1 + b.length) := by
  have hlength : a.length + 1 + b.length = (ofText (a ++ CodeUnit.newline :: b)).length := by
    rw [length_ofText, List.length_append, List.length_cons]
    omega
  exact (copied_after_lines a b).triviaAt ht (Nat.zero_le _) (by omega) (.refl _) fun _ =>
    EndsLine.thenTrivia (.inl hlength) (.refl _)

end Source

namespace Grammar

/-- Two sources that are programs, with the end of a line between them, are a program of the
statements of the first and, so many lines and units further on, those of the second. -/
theorem program_concat (a b : Text) {c d : Cursor} {p q : Program}
    (ha : program (.ofText a) ⟨0, 0⟩ = .ok c p) (hb : program (.ofText b) ⟨0, 0⟩ = .ok d q) :
    ∃ r, program (.ofText (a ++ CodeUnit.newline :: b)) ⟨0, 0⟩ =
        .ok ⟨(a ++ CodeUnit.newline :: b).length, 0⟩ r ∧
      r.statements = p.statements ++
        Stmt.allMapSpans (Span.shift (a.count CodeUnit.newline + 1) (a.length + 1)) q.statements := by
  obtain ⟨ts, m, hl, ht, hp, hc, -⟩ := program_lexed (Nat.zero_le _) ha
  obtain ⟨us, n, hl', ht', hq, hd, -⟩ := program_lexed (Nat.zero_le _) hb
  rw [hc, Source.length_ofText] at ht
  rw [hd, Source.length_ofText] at ht'
  have hfirst := hl.before_lines a b (Nat.zero_le _)
  have hbetween := ht.before_lines a b
  have hsecond := hl'.after_lines a b (Nat.zero_le _)
  have hend := ht'.after_lines a b
  obtain ⟨k, hsecond', hend'⟩ := hsecond.within_trivia hbetween hend
  have hderives :=
    hp.append (hq.mapSpans (Respan.shift (a.count CodeUnit.newline + 1) (a.length + 1)))
  have hlength : (Source.ofText (a ++ CodeUnit.newline :: b)).length = a.length + 1 + b.length := by
    rw [Source.length_ofText, List.length_append, List.length_cons]
    omega
  rw [← hlength] at hend'
  have hok := program_accepts (c := ⟨0, 0⟩) (Nat.zero_le _) (hfirst.append hsecond') hend' hderives
  rw [Source.length_ofText] at hok
  exact ⟨_, hok, rfl⟩

theorem program_concat_comment :
    ∃ p q r, program (.ofText "if x \x7b\x7d //") ⟨0, 0⟩ = .ok ⟨10, 0⟩ p ∧
      program (.ofText "y;") ⟨0, 0⟩ = .ok ⟨2, 0⟩ q ∧
      program (.ofText "if x \x7b\x7d //\ny;") ⟨0, 0⟩ = .ok ⟨13, 0⟩ r ∧
      r.statements = p.statements ++ Stmt.allMapSpans (Span.shift 1 11) q.statements := by
  have hfirst : (program (.ofText "if x \x7b\x7d //") ⟨0, 0⟩).stop? = some ⟨10, 0⟩ := by
    decide +kernel
  have hsecond : (program (.ofText "y;") ⟨0, 0⟩).stop? = some ⟨2, 0⟩ := by decide +kernel
  obtain ⟨p, hp⟩ := Result.ok_of_stop hfirst
  obtain ⟨q, hq⟩ := Result.ok_of_stop hsecond
  obtain ⟨r, hr, hstatements⟩ := program_concat _ _ hp hq
  exact ⟨p, q, r, hp, hq, hr, hstatements⟩

end Grammar

end BrookSyntax
