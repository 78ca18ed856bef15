import BrookSyntax.Proofs.Completeness
import BrookSyntax.Proofs.Copied
import BrookSyntax.Proofs.Places
import BrookSyntax.Proofs.Soundness
import BrookSyntax.Proofs.TokenUniqueness

namespace BrookSyntax

/-- White space and comments, each comment with the end of its line. -/
inductive TriviaText : Text → Prop where
  | nil : TriviaText []
  | space {u : CodeUnit} {t : Text} (hu : u.isSpace) (h : TriviaText t) : TriviaText (u :: t)
  | comment {inside t : Text} (hi : CodeUnit.newline ∉ inside) (h : TriviaText t) :
      TriviaText ("//" ++ (inside ++ CodeUnit.newline :: t))

theorem TriviaText.triviaAt {s : Source} {i : Nat} {t : Text} (h : TriviaText t)
    (hat : s.hasAt i t = true) : s.TriviaAt i (i + t.length) := by
  induction h generalizing i with
  | nil => exact .refl i
  | @space u t hu h ih =>
    obtain ⟨hunit, hat⟩ := Source.hasAt_cons.1 hat
    have hstep : i + 1 + t.length = i + (t.length + 1) := by omega
    rw [List.length_cons, ← hstep]
    exact .space hunit hu (ih hat)
  | @comment inside t hi h ih =>
    obtain ⟨hslashes, hat⟩ := Source.hasAt_append.1 hat
    obtain ⟨hinside, hat⟩ := Source.hasAt_append.1 hat
    obtain ⟨hline, hat⟩ := Source.hasAt_cons.1 hat
    have htwo : (Text.ofString "//").length = 2 := rfl
    have hcomment : s.CommentAt i (i + 2 + inside.length) := by
      refine ⟨hslashes, by omega, ?_, .inr hline⟩
      intro k hk hk' hunit
      have hboth := Source.hasAt_append.2 ⟨hslashes, hinside⟩
      obtain ⟨l, rfl⟩ := Nat.exists_eq_add_of_le hk
      have hl : l < (Text.ofString "//" ++ inside).length := by
        rw [List.length_append]
        omega
      rw [Source.unit?_of_hasAt hboth hl, Option.some.injEq] at hunit
      have hmem := List.getElem_mem hl
      rw [hunit] at hmem
      rcases List.mem_append.1 hmem with hmem | hmem
      · exact absurd hmem (by decide)
      · exact hi hmem
    have hrest := ih hat
    rw [htwo] at hline hrest
    have hsum : i + 2 + inside.length + 1 + t.length =
        i + ("//" ++ (inside ++ CodeUnit.newline :: t) : Text).length := by
      rw [List.length_append, List.length_append, List.length_cons]
      omega
    rw [← hsum]
    exact .comment hcomment (.space hline rfl hrest)

/-- A stretch of trivia that the parser skips: from the start, from the end of a token, or once more
in front of a token where it has skipped before. -/
structure Source.Skipped (s : Source) (i j : Nat) : Prop where
  skips : Parser.trivia s ⟨i, 0⟩ = .ok ⟨j, 0⟩ ()
  between : ∃ us k, s.LexedAfter 0 us k ∧ (i = k ∨ i = s.skip k)

/-- Where the unit at an offset is once `n` units are in place of those from `i` to `j`. -/
def offsetAfter (i j n x : Nat) : Nat := if x < i then x else i + n + (x - j)

/-- Where a stretch that ends at an offset ends once `n` units are in place of those from `i` to
`j`: what ends at `i` ends before them. -/
def endAfter (i j n x : Nat) : Nat := if x ≤ i then x else i + n + (x - j)

/-- Stretches move with the units in them to where they are in a source with `n` units in place of
those from `i` to `j`. -/
def Respan.replace (s : Source) (i j n : Nat) : Respan :=
  .ofEnds (fun p => s.position (offsetAfter i j n p.offset))
    (fun p => s.position (endAfter i j n p.offset))
    (s.position_inOrder fun x y h => by
      rw [offsetAfter, offsetAfter]
      split <;> split <;> omega)
    (s.position_inOrder fun x y h => by
      rw [endAfter, endAfter]
      split <;> split <;> omega)

namespace Source

/-- One source is another one with `n` units of trivia in place of the units from `i` to `j`. -/
structure Replaced (s s' : Source) (i j n : Nat) : Prop where
  le : i ≤ j
  before : s.Copied s' 0 i 0
  after : s.Copied s' j s.length (i + n)
  trivia : s'.TriviaAt i (i + n)
  length : s'.length = i + n + (s.length - j)

namespace Replaced

variable {s s' : Source} {i j k n : Nat} {ts us : List Token}

theorem lexed_before (h : s.Replaced s' i j n) (hl : s.LexedAfter 0 us k) (hk : k ≤ i) :
    s'.LexedAfter 0 (us.map (Token.mapSpan (Respan.replace s' i j n).map)) k := by
  have hlen := h.before.le_length
  have hcopy := h.before.lexedAfter (g := (Respan.replace s' i j n).map) (fun x y _ hxy hy => ?_) hl
    (Nat.le_refl _) hk (Nat.zero_le _)
  · simpa only [Nat.zero_add, Nat.sub_zero] using hcopy
  · simp only [Respan.replace, Respan.ofEnds, position_offset, Nat.zero_add, Nat.sub_zero]
    rw [Nat.min_eq_left (by omega), Nat.min_eq_left (by omega), offsetAfter, endAfter,
      if_pos (by omega), if_pos hy]

theorem lexed_after (h : s.Replaced s' i j n) (hl : s.LexedAfter j us k) (hj : j ≤ s.length) :
    s'.LexedAfter (i + n) (us.map (Token.mapSpan (Respan.replace s' i j n).map))
      (i + n + (k - j)) := by
  have hle := h.le
  have hk := (hl.bounds hj).2
  have hcopy := h.after.lexedAfter (g := (Respan.replace s' i j n).map) (fun x y hx hxy hy => ?_) hl
    (Nat.le_refl _) hk hj
  · rwa [Nat.sub_self, Nat.add_zero] at hcopy
  · simp only [Respan.replace, Respan.ofEnds, position_offset]
    rw [Nat.min_eq_left (by omega), Nat.min_eq_left (by omega), offsetAfter, endAfter,
      if_neg (by omega), if_neg (by omega)]

theorem trivia_after (h : s.Replaced s' i j n) (ht : s.TriviaAt k s.length) (hj : j ≤ k) :
    s'.TriviaAt (i + n + (k - j)) s'.length := by
  rw [h.length]
  exact h.after.triviaAt ht hj (Nat.le_refl _) (.refl _) fun _ =>
    EndsLine.thenTrivia (.inl h.length.symm) (.refl _)

/-- The trivia before the replacement goes on with it. A comment that is not ended there is one that
the end of the source ends, and in the replacement the end of its line. -/
theorem trivia_before (h : s.Replaced s' i j n) (hk : k ≤ s.length) (hi : s.skip k = i) :
    s'.TriviaAt k (i + n) := by
  have htrivia := triviaAt_skip hk
  have hspace := (noTriviaAt_skip hk).space
  rw [hi] at htrivia hspace
  apply h.before.triviaAt_start htrivia (Nat.le_refl _) h.trivia
  intro hcomment
  obtain hlen | hunit := hcomment.endsLine
  · have hend : i + n = s'.length := by
      have := h.le
      have := h.length
      omega
    exact h.trivia.lineThenTrivia (.inl hend)
  · rw [hunit] at hspace
    cases hspace

theorem lexed (h : s.Replaced s' i j n) (hskip : s.Skipped i j) (hl : s.LexedAfter 0 ts k)
    (ht : s.TriviaAt k s.length) :
    ∃ m, s'.LexedAfter 0 (ts.map (Token.mapSpan (Respan.replace s' i j n).map)) m ∧
      s'.TriviaAt m s'.length := by
  obtain ⟨hskips, us, l, hus, hi⟩ := hskip
  obtain ⟨vs, rfl, hvs⟩ := hus.prefix_of_all hl ht (Nat.zero_le _)
  have hll := (hus.bounds (Nat.zero_le _)).2
  obtain ⟨m, hvs, hend⟩ := hvs.from_skip ht hll
  have hj : s.skip i = j := congrArg Cursor.offset (Parser.trivia_eq_ok.1 hskips)
  have hgap : s'.TriviaAt l (i + n) ∧ l ≤ i ∧ s.skip l = j := by
    obtain rfl | rfl := hi
    · exact ⟨h.trivia, Nat.le_refl _, hj⟩
    · exact ⟨h.trivia_before hll rfl, le_skip hll, (skip_skip hll).symm.trans hj⟩
  obtain ⟨hgap, hli, hlj⟩ := hgap
  rw [hlj] at hvs
  have hjlen : j ≤ s.length := by
    rw [← hlj]
    exact skip_le hll
  have hafter := h.lexed_after hvs hjlen
  have hend' := h.trivia_after hend (hvs.bounds hjlen).1
  obtain ⟨m', hrest, hend'⟩ := hafter.within_trivia hgap hend'
  rw [List.map_append]
  exact ⟨m', (h.lexed_before hus hli).append hrest, hend'⟩

end Replaced

end Source

section Replacement

variable (t r : Text) {i j : Nat}

namespace Source

theorem copied_after (hj : j ≤ t.length) (hi : i ≤ t.length) :
    (ofText t).Copied (ofText (t.take i ++ (r ++ t.drop j))) j t.length (i + r.length) := by
  have h : (ofText t).Copied (ofText (t.take i ++ (r ++ t.drop j))) _ _ _ :=
    .of_texts (t.take j) (t.drop j) [] (t.take i ++ r) []
    (by rw [List.append_nil]; exact (List.take_append_drop j t).symm)
    (by rw [List.append_nil, List.append_assoc]; rfl) rfl
  rwa [List.length_append, List.length_take, List.length_take, List.length_drop,
    Nat.min_eq_left hi, Nat.min_eq_left hj, Nat.add_sub_cancel' hj] at h

theorem replaced_ofText (hskip : (ofText t).Skipped i j) (hr : TriviaText r)
    (hstart : r.head?.any CodeUnit.isSpace = true) :
    (ofText t).Replaced (ofText (t.take i ++ (r ++ t.drop j))) i j r.length := by
  obtain ⟨hskips, us, k, hus, hi⟩ := hskip
  have hk := (hus.bounds (Nat.zero_le _)).2
  have hi : i ≤ (ofText t).length := by
    obtain rfl | rfl := hi
    · exact hk
    · exact skip_le hk
  obtain rfl : (ofText t).skip i = j := congrArg Cursor.offset (Parser.trivia_eq_ok.1 hskips)
  have hle := le_skip hi
  have hj := skip_le hi
  have hstop : (r ++ t.drop ((ofText t).skip i)).head?.all CodeUnit.isBreak = true := by
    cases r with
    | nil => cases hstart
    | cons u r => exact CodeUnit.isBreak_of_space hstart
  have hbefore := (ofText t).copied_take hi hstop
  have hat := (ofText t).hasAt_take_append hi r (t.drop ((ofText t).skip i))
  rw [length_ofText] at hi hj
  have htake : (t.take i).length = i := by rw [List.length_take, Nat.min_eq_left hi]
  exact {
    le := hle
    before := hbefore
    after := by
      rw [length_ofText]
      exact copied_after t r hj hi
    trivia := hr.triviaAt hat
    length := by
      simp only [length_ofText, List.length_append, List.length_drop, htake]
      omega }

end Source

end Replacement

namespace Grammar

/-- Where the parser skips trivia, other trivia may stand, if it starts with white space: the source
is still a program, with the same tree but for the spans. -/
theorem program_trivia_replaced (t r : Text) {i j : Nat} {c : Cursor} {p : Program}
    (hp : program (.ofText t) ⟨0, 0⟩ = .ok c p) (hskip : (Source.ofText t).Skipped i j)
    (hr : TriviaText r) (hstart : r.head?.any CodeUnit.isSpace = true) :
    ∃ p', program (.ofText (t.take i ++ (r ++ t.drop j))) ⟨0, 0⟩ =
        .ok ⟨(t.take i ++ (r ++ t.drop j)).length, 0⟩ p' ∧
      p'.bare = p.bare := by
  obtain ⟨ts, m, hl, ht, hs, hc, -⟩ := program_lexed (Nat.zero_le _) hp
  rw [hc] at ht
  have hreplaced := Source.replaced_ofText t r hskip hr hstart
  obtain ⟨m', hl', ht'⟩ := hreplaced.lexed hskip hl ht
  have hok := program_accepts (c := ⟨0, 0⟩) (Nat.zero_le _) hl' ht' (hs.mapSpans _)
  rw [Source.length_ofText] at hok
  refine ⟨_, hok, ?_⟩
  rw [Program.bare, Program.bare, Stmt.allMapSpans_bare]

theorem program_trivia_replaced_division :
    ∃ p p', program (.ofText "x/y;") ⟨0, 0⟩ = .ok ⟨4, 0⟩ p ∧
      program (.ofText "x/ // z\ny;") ⟨0, 0⟩ = .ok ⟨10, 0⟩ p' ∧ p'.bare = p.bare := by
  have hstop : (program (.ofText "x/y;") ⟨0, 0⟩).stop? = some ⟨4, 0⟩ := by decide +kernel
  obtain ⟨p, hp⟩ := Result.ok_of_stop hstop
  have hname : (Source.ofText "x/y;").TokenAt 0 (.name "x") 1 :=
    Source.tokenAt_name.2 ⟨by decide, by decide, rfl, by decide⟩
  have hsign : (Source.ofText "x/y;").TokenAt 1 (.mark "/") 2 :=
    Source.tokenAt_mark (by decide) (by decide) (by decide) (by decide)
  have hskip : (Source.ofText "x/y;").Skipped 2 2 :=
    ⟨rfl, _, 2, .inr ⟨0, .refl 0, .cons hname (.refl 1) (.single hsign)⟩, .inl rfl⟩
  have hcomment : TriviaText ("//" ++ (Text.ofString " z" ++ CodeUnit.newline :: [])) :=
    .comment (by decide) .nil
  have htrivia : TriviaText " // z\n" := .space (u := CodeUnit.of ' ') rfl hcomment
  obtain ⟨p', hp', hbare⟩ := program_trivia_replaced "x/y;" " // z\n" hp hskip htrivia rfl
  exact ⟨p, p', hp, hp', hbare⟩

end Grammar

end BrookSyntax
