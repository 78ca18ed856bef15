import BrookSyntax.Proofs.ExprCompleteness
import BrookSyntax.Proofs.Failing
import BrookSyntax.Proofs.PrintedTokens

namespace BrookSyntax

/-- The units that may follow a backslash. -/
def escapeLetters : Text :=
  [CodeUnit.of 'n', CodeUnit.of 't', CodeUnit.of 'r', CodeUnit.quote, CodeUnit.backslash,
    CodeUnit.of '0']

theorem escapeValue?_eq_none {u : CodeUnit} : escapeValue? u = none ↔ u ∉ escapeLetters := by
  grind [escapeValue?, escapeLetters]

/-- A unit as it may be written in a string: a quote and a backslash are escaped, and other units
that have an escape sequence may be. -/
def CodeUnit.written (u : CodeUnit) (asEscape : Bool) : Text :=
  if u = quote ∨ u = backslash ∨ asEscape = true then u.escaped else [u]

/-- The inside of a string that is written unit by unit. -/
def Text.written (units : List (CodeUnit × Bool)) : Text :=
  units.flatMap fun (u, asEscape) => u.written asEscape

theorem CodeUnit.spells_written {t v : Text} (u : CodeUnit) (asEscape : Bool) (h : Spells t v) :
    Spells (u.written asEscape ++ t) (u :: v) := by
  rw [written]
  split
  · exact u.spells_escaped h
  · next hne =>
    rw [not_or, not_or] at hne
    exact .plain hne.1 hne.2.1 h

theorem Text.spells_written (units : List (CodeUnit × Bool)) :
    Spells (written units) (units.map Prod.fst) := by
  induction units with
  | nil => exact .nil
  | cons x units ih => exact x.1.spells_written x.2 ih

namespace Source

variable {s : Source} {i j : Nat} {t v : Text}

/-- A backslash stands at an offset that opens no escape sequence. -/
structure BadEscape (s : Source) (j : Nat) : Prop where
  backslash : s.unit? j = some CodeUnit.backslash
  letter : ∀ u, s.unit? (j + 1) = some u → u ∉ escapeLetters

theorem BadEscape.bind_eq_none (h : s.BadEscape j) :
    (s.unit? (j + 1)).bind escapeValue? = none := by
  cases hu : s.unit? (j + 1) with
  | none => rfl
  | some u => exact escapeValue?_eq_none.2 (h.letter u hu)

/-- The scan of a string is at its end: a quote that is not escaped, a bad escape sequence or the
end of the source. -/
def EndsScan (s : Source) (j : Nat) : Prop :=
  s.unit? j = some CodeUnit.quote ∨ s.BadEscape j ∨ j = s.length

theorem exists_scan (hi : i ≤ s.length) :
    ∃ t v, Spells t v ∧ s.hasAt i t = true ∧ s.EndsScan (i + t.length) := by
  induction hn : s.length - i using Nat.strongRecOn generalizing i with
  | ind n ih =>
    have hhere (h : s.EndsScan i) :
        ∃ t v, Spells t v ∧ s.hasAt i t = true ∧ s.EndsScan (i + t.length) :=
      ⟨[], [], .nil, rfl, h⟩
    cases hu : s.unit? i with
    | none =>
      exact hhere (.inr (.inr (Nat.le_antisymm hi (length_le_of_unit? hu))))
    | some u =>
      have hlt := lt_length_of_unit? hu
      by_cases hq : u = CodeUnit.quote
      · exact hhere (.inl (hq ▸ hu))
      by_cases hb : u = CodeUnit.backslash
      · subst hb
        by_cases hbad : s.BadEscape i
        · exact hhere (.inr (.inl hbad))
        · obtain ⟨w, x, hw, hx⟩ : ∃ w x, s.unit? (i + 1) = some w ∧ escapeValue? w = some x := by
            refine Classical.byContradiction fun hnone => hbad ⟨hu, fun w hw => ?_⟩
            rw [← escapeValue?_eq_none]
            cases hx : escapeValue? w with
            | none => rfl
            | some x => exact absurd ⟨w, x, hw, hx⟩ hnone
          have hlt' := lt_length_of_unit? hw
          obtain ⟨t, v, hs, hat, hend⟩ := ih _ (by omega) (i := i + 2) hlt' rfl
          refine ⟨CodeUnit.backslash :: w :: t, x :: v, .escape hx hs,
            hasAt_cons.2 ⟨hu, hasAt_cons.2 ⟨hw, hat⟩⟩, ?_⟩
          rwa [List.length_cons, List.length_cons, Nat.add_assoc t.length, Nat.add_comm t.length,
            ← Nat.add_assoc]
      · obtain ⟨t, v, hs, hat, hend⟩ := ih _ (by omega) (i := i + 1) hlt rfl
        refine ⟨u :: t, u :: v, .plain hq hb hs, hasAt_cons.2 ⟨hu, hat⟩, ?_⟩
        rwa [List.length_cons, Nat.add_comm t.length, ← Nat.add_assoc]

end Source

namespace Parser

variable {α β : Type} {p : Parser α} {s : Source} {c : Cursor} {f : Failure}

/-- The parser fails for good. -/
def Aborts (s : Source) (c : Cursor) (p : Parser α) (f : Failure) : Prop :=
  p s c = .failed f ∧ f.committed = true

theorem Aborts.bind (h : Aborts s c p f) (g : α → Parser β) : Aborts s c (p >>= g) f :=
  ⟨bind_eq_failed.2 (.inl h.1), h.2⟩

theorem Aborts.describedAs (h : Aborts s c p f) (description : Text) :
    Aborts s c (describedAs description p) f :=
  ⟨describedAs_eq_failed.2 ⟨f, h.1, .inl ⟨.inl h.2, rfl⟩⟩, h.2⟩

theorem Aborts.choice (h : Aborts s c p f) (ps : List (Parser α))
    (hps : ∀ q ∈ ps, q.Declines s c) (qs : List (Parser α)) :
    Aborts s c (choice (ps ++ p :: qs)) f := by
  have hattempts : attempts s c (ps ++ p :: qs) = .inl (.failed f) := by
    induction ps with
    | nil =>
      rw [List.nil_append, attempts_cons, h.1]
      simp only [h.2, ↓reduceIte]
    | cons q ps ih =>
      obtain ⟨g, hg, hopen⟩ := hps q List.mem_cons_self
      rw [List.cons_append, attempts_cons, hg]
      simp only [hopen, Bool.false_eq_true, ↓reduceIte,
        ih fun q hq => hps q (List.mem_cons_of_mem _ hq)]
  exact ⟨by rw [Parser.choice, hattempts], h.2⟩

end Parser

namespace Grammar

open BrookSyntax.Parser

variable {s : Source} {c : Cursor} {t v : Text} {f : Failure}

/-- A string whose inside is read in so many steps, from one unit behind its quote on. -/
theorem string_of_quote (h : s.unit? c.offset = some CodeUnit.quote) (hs : Spells t v)
    (hat : s.hasAt (c.offset + 1) t = true) :
    ∃ n, string s c =
      match (s.stringFrom (n + 1) (c.offset + 1 + t.length)).map fun r => (v ++ r.1, r.2) with
      | .ok (value, j) => .ok ⟨j, c.depth⟩ (.string value ⟨s.position c.offset, s.position j⟩)
      | .error f => .failed f := by
  have hlt := s.lt_length_of_unit? h
  have hle := Source.add_length_le hat hlt
  have hshort := hs.length_le
  refine ⟨s.length - c.offset - v.length - 1, ?_⟩
  have hsteps : s.length - c.offset - v.length - 1 + 1 + v.length = s.length - c.offset := by omega
  rw [← Source.stringFrom_spells hs hat, hsteps, string, Cursor.peek?, if_pos h]
  rfl

theorem string_closed (h : s.unit? c.offset = some CodeUnit.quote) (hs : Spells t v)
    (hat : s.hasAt (c.offset + 1) t = true)
    (hend : s.unit? (c.offset + 1 + t.length) = some CodeUnit.quote) :
    string s c = .ok ⟨c.offset + 1 + t.length + 1, c.depth⟩
      (.string v ⟨s.position c.offset, s.position (c.offset + 1 + t.length + 1)⟩) := by
  obtain ⟨n, hn⟩ := string_of_quote h hs hat
  simp only [hn, Source.stringFrom, hend, ↓reduceIte, Except.map, List.append_nil]

theorem string_badEscape (h : s.unit? c.offset = some CodeUnit.quote) (hs : Spells t v)
    (hat : s.hasAt (c.offset + 1) t = true) (hend : s.BadEscape (c.offset + 1 + t.length)) :
    Aborts s c string { cause := .token "escape sequence"
                        offset := c.offset + 1 + t.length + 1
                        committed := true } := by
  obtain ⟨n, hn⟩ := string_of_quote h hs hat
  have hq : CodeUnit.backslash ≠ CodeUnit.quote := by decide
  refine ⟨?_, rfl⟩
  simp only [hn, Source.stringFrom, hend.backslash, hq, hend.bind_eq_none, ↓reduceIte, Except.map]

theorem string_open (h : s.unit? c.offset = some CodeUnit.quote) (hs : Spells t v)
    (hat : s.hasAt (c.offset + 1) t = true) (hend : c.offset + 1 + t.length = s.length) :
    Aborts s c string { cause := .endOfInput "\"", offset := s.length, committed := true } := by
  obtain ⟨n, hn⟩ := string_of_quote h hs hat
  refine ⟨?_, rfl⟩
  simp only [hn, hend, Source.stringFrom, s.unit?_eq_none (Nat.le_refl _), Except.map]

theorem number_declines_at_quote (h : s.unit? c.offset = some CodeUnit.quote) :
    number.Declines s c := number_declines (by rw [h]; decide)

theorem name_declines_at_quote (h : s.unit? c.offset = some CodeUnit.quote) : name.Declines s c :=
  (identifier_declines_of_first (by rw [h]; decide)).mapSpan _

theorem unaryOp_declines_at_quote (h : s.unit? c.offset = some CodeUnit.quote) :
    unaryOp.Declines s c := by
  refine choice_literals_declines fun op _ => Bool.eq_false_iff.2 fun hat => ?_
  have hfirst : s.unit? c.offset = op.symbol.head? := by
    cases op <;> exact (Source.hasAt_cons.1 hat).1
  rw [h] at hfirst
  revert hfirst
  cases op <;> decide

variable {inner : InnerExpr}

theorem primary_of_string_ok {d : Cursor} {e : Expr}
    (h : s.unit? c.offset = some CodeUnit.quote) (hs : string s c = .ok d e) :
    primary inner s c = .ok d e := choice_skip (number_declines_at_quote h) (choice_take hs)

theorem primary_aborts (h : s.unit? c.offset = some CodeUnit.quote) (hs : Aborts s c string f) :
    Aborts s c (primary inner) f := by
  refine hs.choice [number] (fun q hq => ?_) _
  rw [List.mem_singleton.1 hq]
  exact number_declines_at_quote h

theorem unary_aborts (h : s.unit? c.offset = some CodeUnit.quote)
    (hp : Aborts s c (primary inner) f) : Aborts s c (unary inner) f := by
  have hcalled : Aborts s c (called inner) f := hp.bind _
  refine Aborts.describedAs (hcalled.choice [_] (fun q hq => ?_) []) _
  rw [List.mem_singleton.1 hq]
  exact ((unaryOp_declines_at_quote h).bind _).mapSpan _

theorem binaries_aborts (hu : Aborts s c (unary inner) f) : Aborts s c (binaries inner) f := by
  rw [binaries]
  induction BinaryOp.levels with
  | nil => exact hu
  | cons ops levels ih => exact ih.bind _

theorem assignment_aborts (h : s.unit? c.offset = some CodeUnit.quote)
    (hb : Aborts s c (binaries inner) f) : Aborts s c (assignment inner) f := by
  refine Aborts.describedAs (hb.choice [_] (fun q hq => ?_) []) _
  rw [List.mem_singleton.1 hq]
  exact ((name_declines_at_quote h).bind _).mapSpan _

/-- What is wrong inside of a string is told by the expression in a frame of its own. -/
theorem expression_of_string_aborts (h : s.unit? c.offset = some CodeUnit.quote)
    (hs : Aborts s c string f) : expression s c = .failed (f.within "expression" c.offset) :=
  labelled_eq_failed.2
    ⟨f, (assignment_aborts h (binaries_aborts (unary_aborts h (primary_aborts h hs)))).1, rfl⟩

theorem expression_of_string (hs : Spells t v) :
    expression (.ofText (CodeUnit.quote :: t ++ [CodeUnit.quote])) ⟨0, 0⟩ =
      .ok ⟨t.length + 2, 0⟩ (.string v
        ⟨(Source.ofText (CodeUnit.quote :: t ++ [CodeUnit.quote])).position 0,
          (Source.ofText (CodeUnit.quote :: t ++ [CodeUnit.quote])).position (t.length + 2)⟩) := by
  have hlen : (Source.ofText (CodeUnit.quote :: t ++ [CodeUnit.quote])).length = t.length + 2 := by
    rw [Source.length_eq]
    simp [Source.ofText]
  have htoken : (Source.ofText (CodeUnit.quote :: t ++ [CodeUnit.quote])).TokenAt 0 (.string v)
      (t.length + 2) := by
    refine ⟨CodeUnit.quote :: t ++ [CodeUnit.quote], ⟨t, hs, rfl⟩, ?_, by simp, trivial⟩
    rw [Source.hasAt_iff]
    exact List.prefix_refl _
  have hend : (Source.ofText (CodeUnit.quote :: t ++ [CodeUnit.quote])).Stops 1 (t.length + 2) := by
    have hstop := (Source.ofText (CodeUnit.quote :: t ++ [CodeUnit.quote])).noTriviaAt_length
    have hskip := hstop.skip_eq (Nat.le_refl _)
    rw [hlen] at hskip
    exact .inl (hskip.trans hlen.symm)
  exact expression_accepts (c := ⟨0, 0⟩) (Nat.zero_le _) rfl (.single htoken)
    ((DerivesExpr.string _ v _).loosen (by decide) (by decide)) hend

/-- Where a string is opened, the scan of what follows tells what is read: the value, or what is
wrong and where. What is written unit by unit is read back. -/
theorem string_literals_exact (h : s.unit? c.offset = some CodeUnit.quote) :
    (∃ t v, Spells t v ∧ s.hasAt (c.offset + 1) t = true ∧ s.EndsScan (c.offset + 1 + t.length)) ∧
    (∀ inner t v j, Spells t v → s.hasAt (c.offset + 1) t = true → c.offset + 1 + t.length = j →
      (s.unit? j = some CodeUnit.quote →
        primary inner s c =
          .ok ⟨j + 1, c.depth⟩ (.string v ⟨s.position c.offset, s.position (j + 1)⟩)) ∧
      (s.BadEscape j →
        primary inner s c =
          .failed { cause := .token "escape sequence", offset := j + 1, committed := true } ∧
        expression s c =
          .failed { cause := .token "escape sequence", offset := j + 1, committed := true
                    frames := [⟨"expression", c.offset⟩] }) ∧
      (j = s.length →
        primary inner s c =
          .failed { cause := .endOfInput "\"", offset := s.length, committed := true } ∧
        expression s c =
          .failed { cause := .endOfInput "\"", offset := s.length, committed := true
                    frames := [⟨"expression", c.offset⟩] })) ∧
    (∀ inner units, s.hasAt (c.offset + 1) (Text.written units ++ [CodeUnit.quote]) = true →
      primary inner s c = .ok ⟨c.offset + 1 + (Text.written units).length + 1, c.depth⟩
        (.string (units.map Prod.fst) ⟨s.position c.offset,
          s.position (c.offset + 1 + (Text.written units).length + 1)⟩)) ∧
    ∀ units, ∃ span,
      expression (.ofText (CodeUnit.quote :: Text.written units ++ [CodeUnit.quote])) ⟨0, 0⟩ =
        .ok ⟨(Text.written units).length + 2, 0⟩ (.string (units.map Prod.fst) span) := by
  refine ⟨Source.exists_scan (s.lt_length_of_unit? h), ?_, ?_, ?_⟩
  · rintro inner t v j hs hat rfl
    refine ⟨fun hend => ?_, fun hend => ?_, fun hend => ?_⟩
    · exact primary_of_string_ok h (string_closed h hs hat hend)
    · have hf := string_badEscape h hs hat hend
      exact ⟨(primary_aborts h hf).1, expression_of_string_aborts h hf⟩
    · have hf := string_open h hs hat hend
      exact ⟨(primary_aborts h hf).1, expression_of_string_aborts h hf⟩
  · intro inner units hat
    obtain ⟨hat, hend⟩ := Source.hasAt_append.1 hat
    have hok := string_closed h (Text.spells_written units) hat (Source.hasAt_cons.1 hend).1
    exact primary_of_string_ok h hok
  · exact fun units => ⟨_, expression_of_string (Text.spells_written units)⟩

/-- The backslash before `q` is the first thing wrong in `"a\"\q"`; the quote before it is
escaped. -/
theorem string_literals_exact_escape :
    (Source.ofText "\"a\\\"\\q\"").unit? 0 = some CodeUnit.quote ∧
      expression (.ofText "\"a\\\"\\q\"") ⟨0, 0⟩ =
        .failed { cause := .token "escape sequence", offset := 5, committed := true
                  frames := [⟨"expression", 0⟩] } := by
  have hquote : (Source.ofText "\"a\\\"\\q\"").unit? (⟨0, 0⟩ : Cursor).offset =
      some CodeUnit.quote := rfl
  have hinside : Spells "a\\\"" "a\"" := .plain (by decide) (by decide) (.escape rfl .nil)
  have hbad : (Source.ofText "\"a\\\"\\q\"").BadEscape 4 := by
    refine ⟨rfl, fun u hu => ?_⟩
    cases hu
    decide
  have hscan := (string_literals_exact hquote).2.1 (.ofLevels 0) _ _ 4 hinside rfl rfl
  exact ⟨hquote, (hscan.2.1 hbad).2⟩

end Grammar

end BrookSyntax
