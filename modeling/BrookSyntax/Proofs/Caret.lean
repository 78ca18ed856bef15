import BrookSyntax.Proofs.FailureCatalogue
import BrookSyntax.Proofs.Lines
import BrookSyntax.Proofs.WholeNumbers

namespace BrookSyntax

namespace Text

theorem blanks_append (m n : Nat) : blanks m ++ blanks n = blanks (m + n) :=
  List.replicate_append_replicate

theorem newline_notMem_blanks (n : Nat) : CodeUnit.newline ∉ blanks n := by
  intro h
  exact absurd (List.eq_of_mem_replicate h) (by decide)

theorem newline_notMem_ofNat (n : Nat) : CodeUnit.newline ∉ ofNat n := by
  intro h
  exact absurd (ofNat_isDigit n _ h) (by decide)

theorem WithoutReturn.newline_notMem {raw line : Text} (h : raw.WithoutReturn line)
    (hraw : CodeUnit.newline ∉ raw) : CodeUnit.newline ∉ line := by
  rcases h with rfl | ⟨rfl, -⟩
  · exact fun hmem => hraw (List.mem_append_left _ hmem)
  · exact hraw

end Text

namespace Source

variable {s : Source}

theorem eq_of_text {s' : Source} (h : s'.text = s.text) : s' = s := by
  obtain ⟨text, units, starts, hunits, hstarts⟩ := s
  obtain ⟨text', units', starts', hunits', hstarts'⟩ := s'
  cases h
  cases hunits
  cases hstarts
  cases hunits'
  cases hstarts'
  rfl

theorem lineAt_ofNat {n : Nat} (h : n ≤ 2 ^ 53) : s.lineAt (.ofNat n) = s.line n := by
  rw [lineAt, Binary64.toInt?_ofNat h]
  rfl

end Source

namespace Diagnostic

/-- What stands before the text of a line. -/
def lineMark (number : Nat) : Text := "> " ++ Text.ofNat number ++ "| "

/-- The line of a source under a diagnostic. -/
def quotedLine (number : Nat) (line : Text) : Text := lineMark number ++ line

/-- A caret in a column, with blanks up to it. -/
def caretLine (column : Nat) : Text := ">" ++ Text.blanks (column - 1) ++ "^"

theorem newline_notMem_quotedLine {number : Nat} {line : Text} (h : CodeUnit.newline ∉ line) :
    CodeUnit.newline ∉ quotedLine number line := by
  have hnumber := Text.newline_notMem_ofNat number
  have hmark : CodeUnit.newline ∉ Text.ofString "> " ∧ CodeUnit.newline ∉ Text.ofString "| " := by
    decide
  simp only [quotedLine, lineMark, List.mem_append, not_or]
  exact ⟨⟨⟨hmark.1, hnumber⟩, hmark.2⟩, h⟩

theorem newline_notMem_caretLine (column : Nat) : CodeUnit.newline ∉ caretLine column := by
  have hends : CodeUnit.newline ∉ Text.ofString ">" ∧ CodeUnit.newline ∉ Text.ofString "^" := by
    decide
  simp only [caretLine, List.mem_append, not_or]
  exact ⟨⟨hends.1, Text.newline_notMem_blanks _⟩, hends.2⟩

theorem length_lineMark (number : Nat) :
    (lineMark number).length = (Text.ofNat number).length + 4 := by
  have hleft : (Text.ofString "> ").length = 2 := rfl
  have hright : (Text.ofString "| ").length = 2 := rfl
  rw [lineMark, List.length_append, List.length_append, hleft, hright]
  omega

theorem caretLine_eq (number col : Nat) :
    Text.ofString "\n> " ++ Text.blanks (Text.ofNat number).length ++ "  " ++ Text.blanks col ++
        "^" =
      CodeUnit.newline :: caretLine ((lineMark number).length + col) := by
  have hmark : Text.ofString "\n> " = CodeUnit.newline :: (">" ++ Text.blanks 1) := rfl
  have hgap : Text.ofString "  " = Text.blanks 2 := rfl
  have hblanks : Text.blanks 1 ++ (Text.blanks (Text.ofNat number).length ++
      (Text.blanks 2 ++ Text.blanks col)) = Text.blanks ((lineMark number).length + col - 1) := by
    rw [length_lineMark, Text.blanks_append, Text.blanks_append, Text.blanks_append]
    congr 1
    omega
  rw [caretLine, ← hblanks, hmark, hgap]
  simp only [List.append_assoc, List.cons_append]

theorem caretLines_ofNat {number col i : Nat} (line : Text) (hpos : 0 < number)
    (hnumber : number ≤ 2 ^ 52) (hcol : col ≤ maxTextLength) :
    caretLines ((⟨number, col + 1, i⟩ : Position).map .ofNat) line =
      .ok (CodeUnit.newline :: (quotedLine number line ++
        CodeUnit.newline :: caretLine ((lineMark number).length + col))) := by
  have hsub : Binary64.ofNat (col + 1) - .ofNat 1 = .ofNat (col + 1 - 1) := by
    apply Binary64.ofNat_sub (Nat.le_add_left 1 col)
    rw [maxTextLength] at hcol
    omega
  have htext := Binary64.text_ofNat hpos hnumber
  have hmark : Text.ofString "\n> " = CodeUnit.newline :: Text.ofString "> " := rfl
  have hcaret := caretLine_eq number col
  rw [caretLines, Position.map, hsub, Nat.add_sub_cancel, Text.blanksFor_ofNat hcol, Except.map,
    htext, ← hcaret,
    quotedLine, lineMark]
  nth_rewrite 1 [hmark]
  simp only [List.append_assoc, List.cons_append]

/-- The text of a diagnostic at a place that a source has, with the line of the place, if there is
anything in it. -/
theorem formatIn_of_lineAt {d : Diagnostic} {s : Source} {c : Nat} {before raw after : Text}
    (hs : s.length ≤ maxTextLength) (hline : s.text.LineAt c before raw after)
    (hplace : d.span.start = (s.position c).map .ofNat) :
    ∃ out, d.formatIn s = .ok out ∧
      (Source.dropReturn raw = [] → out = d.headline ++ d.fixLines) ∧
      (Source.dropReturn raw ≠ [] →
        out.splitOn CodeUnit.newline = (d.headline ++ d.fixLines).splitOn CodeUnit.newline ++
          [quotedLine ((s.text.take c).count CodeUnit.newline + 1) (Source.dropReturn raw),
            caretLine ((lineMark ((s.text.take c).count CodeUnit.newline + 1)).length +
              (c - before.length))]) := by
  have hc := hline.le_length
  rw [Source.length_eq] at hs
  have hnumber : (s.text.take c).count CodeUnit.newline + 1 ≤ 2 ^ 52 := by
    have hcount := List.count_le_length (a := CodeUnit.newline) (l := s.text.take c)
    rw [List.length_take_of_le hc] at hcount
    rw [maxTextLength] at hs
    omega
  rw [Source.position_of_lineAt hline] at hplace
  have hquoted : s.lineAt d.span.start.line = Source.dropReturn raw := by
    rw [hplace, Position.map, Source.lineAt_ofNat (Nat.le_trans hnumber (by decide)),
      hline.count_take, Source.line_of_lineAt hline]
  rw [formatIn, sourceLines, hquoted]
  by_cases hempty : Source.dropReturn raw = []
  · refine ⟨d.headline ++ d.fixLines, ?_, fun _ => rfl, absurd hempty⟩
    rw [if_pos hempty, Except.map, List.append_nil]
  · have hcaret := caretLines_ofNat (i := c) (Source.dropReturn raw)
      (Nat.succ_pos _) hnumber (Nat.le_trans (Nat.sub_le c before.length) (Nat.le_trans hc hs))
    have hraw := (Source.withoutReturn_dropReturn raw).newline_notMem hline.inside
    refine ⟨_, by rw [if_neg hempty, hplace, hcaret, Except.map], fun h => absurd h hempty,
      fun _ => ?_⟩
    rw [List.splitOn_append_cons_self, List.splitOn_append_cons_self,
      List.splitOn_eq_singleton (newline_notMem_quotedLine hraw),
      List.splitOn_eq_singleton (newline_notMem_caretLine _)]
    rfl

/-- The diagnostic of a failed parse can be written with its source, which is no longer than texts
can be. Its last two lines are the line of the failure, unless there is nothing in that, and a caret
under the unit where the parse failed. -/
theorem caret_at_failure {s : Source} {offset : Double} {file : Option Text} {config : Config}
    {clock : Clock} {o : Outcome} {d : Diagnostic} (hs : s.length ≤ maxTextLength)
    (ho : s.outcome offset file config clock = .ok o) (hd : d ∈ o.diagnostics) :
    ∃ f before raw after line out, s.parse offset = .ok (.failed f) ∧
      s.text.LineAt f.offset before raw after ∧ raw.WithoutReturn line ∧
      (∀ s' : Source, s'.text = s.text → d.formatIn s' = .ok out) ∧
      (line = [] → out = d.headline ++ d.fixLines) ∧
      (line ≠ [] →
        out.splitOn CodeUnit.newline = (d.headline ++ d.fixLines).splitOn CodeUnit.newline ++
          [quotedLine ((s.text.take f.offset).count CodeUnit.newline + 1) line,
            caretLine ((lineMark ((s.text.take f.offset).count CodeUnit.newline + 1)).length +
              (f.offset - before.length))]) := by
  obtain ⟨f, hparse, rfl⟩ := Source.diagnostics_of_outcome ho hd
  obtain ⟨n, hn, hfail⟩ := Source.parse_eq_failed hparse
  have hle : f.offset ≤ s.text.length :=
    s.length_eq ▸ (Grammar.program_within (c := ⟨n, 0⟩) hn hfail).le_stop
  obtain ⟨before, raw, after, hline⟩ := Text.exists_lineAt hle
  obtain ⟨out, hout, hempty, hquoted⟩ :=
    formatIn_of_lineAt (d := .ofFailure f s) hs hline rfl
  refine ⟨f, before, raw, after, Source.dropReturn raw, out, hparse, hline,
    Source.withoutReturn_dropReturn raw, fun s' hs' => ?_, hempty, hquoted⟩
  rw [Source.eq_of_text hs', hout]

/-- In the second line of `x;` and `y z`, which both end in a carriage return and a newline, a
semicolon is missed before the `z`. -/
theorem caret_at_failure_crlf :
    (Source.ofText "x;\r\ny z\r\n").length ≤ maxTextLength ∧
      ∃ o d out, (Source.ofText "x;\r\ny z\r\n").outcome .zero none {} ⟨"", .zero⟩ = .ok o ∧
        d ∈ o.diagnostics ∧ d.formatIn (.ofText "x;\r\ny z\r\n") = .ok out ∧
        ∃ first, out.splitOn CodeUnit.newline =
          first ++ [Text.ofString "> 2| y z", Text.ofString ">      ^"] := by
  have hlength : (Source.ofText "x;\r\ny z\r\n").length ≤ maxTextLength := by decide
  have hcursor : (Source.ofText "x;\r\ny z\r\n").cursor .zero = .ok ⟨0, 0⟩ :=
    Source.cursor_eq_ok (Nat.zero_le _) (by decide +kernel)
  have hfail : Grammar.program (.ofText "x;\r\ny z\r\n") ⟨0, 0⟩ = .failed
      { cause := .literal ";", offset := 6
        frames := [⟨"expression_statement", 4⟩, ⟨"program", 0⟩] } := by rfl
  have hparse := congrArg (Except.map fun c => Grammar.program (.ofText "x;\r\ny z\r\n") c) hcursor
  rw [Except.map, hfail] at hparse
  obtain ⟨o, ho, d, hd⟩ : ∃ o, (Source.ofText "x;\r\ny z\r\n").outcome .zero none {} ⟨"", .zero⟩ =
      .ok o ∧ ∃ d, d ∈ o.diagnostics := by
    rw [Source.outcome, Source.parse, hparse]
    exact ⟨_, rfl, _, List.mem_singleton_self _⟩
  obtain ⟨f, before, raw, after, line, out, hf, hline, hreturn, hout, -, hlines⟩ :=
    caret_at_failure hlength ho hd
  cases hparse.symm.trans hf
  have hat : (Source.ofText "x;\r\ny z\r\n").text.LineAt 6 "x;\r\n" "y z\r" "\n" := by
    refine ⟨rfl, ?_, ?_, ?_, ?_, ?_⟩ <;> decide
  obtain ⟨rfl, rfl⟩ := hline.unique hat
  obtain rfl : line = "y z" := by
    rcases hreturn with heq | ⟨-, hlast⟩
    · exact List.append_cancel_right heq.symm
    · exact absurd rfl hlast
  exact ⟨hlength, o, d, out, ho, hd, hout _ rfl, _, hlines (by decide)⟩

end Diagnostic

end BrookSyntax
