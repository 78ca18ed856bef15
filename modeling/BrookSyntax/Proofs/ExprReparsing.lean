import BrookSyntax.Proofs.Copied
import BrookSyntax.Proofs.Parentheses
import BrookSyntax.Proofs.StartOffset
import BrookSyntax.Proofs.TokenUniqueness

namespace BrookSyntax

open BrookSyntax.Grammar Source Node

section Respan

variable {g g' : Span → Span}

mutual

theorem Expr.mapSpans_congr (e : Expr)
    (h : ∀ m, (Node.expr e).Contains m → g m.span = g' m.span) : e.mapSpans g = e.mapSpans g' := by
  have hself : g e.span = g' e.span := h _ (.self _)
  cases e with
  | number value a => exact congrArg (number value) hself
  | string value a => exact congrArg (string value) hself
  | bool value a => exact congrArg (bool value) hself
  | null a => exact congrArg null hself
  | name n => exact congrArg (fun a => name ⟨n.text, a⟩) hself
  | unary op operand a =>
    have hoperand := operand.mapSpans_congr fun m hm => h m (.child (List.mem_singleton_self _) hm)
    rw [mapSpans, mapSpans, hoperand]
    exact congrArg (unary op _) hself
  | binary op left right a =>
    have hleft := left.mapSpans_congr fun m hm => h m (.child List.mem_cons_self hm)
    have hright := right.mapSpans_congr fun m hm =>
      h m (.child (List.mem_cons_of_mem _ List.mem_cons_self) hm)
    rw [mapSpans, mapSpans, hleft, hright]
    exact congrArg (binary op _ _) hself
  | assign target value a =>
    have htarget : g target.span = g' target.span :=
      h (.expr (.name target)) (.child List.mem_cons_self (.self _))
    have hvalue := value.mapSpans_congr fun m hm =>
      h m (.child (List.mem_cons_of_mem _ List.mem_cons_self) hm)
    rw [mapSpans, mapSpans, hvalue, htarget]
    exact congrArg (assign _ _) hself
  | call callee args a =>
    have hcallee := callee.mapSpans_congr fun m hm => h m (.child List.mem_cons_self hm)
    have hargs := Expr.allMapSpans_congr args fun e he m hm =>
      h m (.child (List.mem_cons_of_mem _ (List.mem_map_of_mem he)) hm)
    rw [mapSpans, mapSpans, hcallee, hargs]
    exact congrArg (call _ _) hself

theorem Expr.allMapSpans_congr (es : List Expr)
    (h : ∀ e ∈ es, ∀ m, (Node.expr e).Contains m → g m.span = g' m.span) :
    allMapSpans g es = allMapSpans g' es := by
  cases es with
  | nil => rfl
  | cons e es =>
    rw [List.forall_mem_cons] at h
    rw [allMapSpans, allMapSpans, e.mapSpans_congr h.1, allMapSpans_congr es h.2]

end

end Respan

namespace Source

/-- What stands between two offsets is read, as a source of its own, as one whole expression, the
given one but for its places. -/
def Rereads (s : Source) (i j : Nat) (e : Expr) : Prop :=
  ∃ e', expression (.ofText (s.slice i j)) ⟨0, 0⟩ = .ok ⟨(s.slice i j).length, 0⟩ e' ∧
    e'.mapSpans (.carry s i) = e

variable {s : Source} {i j : Nat} {ts : List Token} {e : Expr}

theorem rest_slice (hij : i ≤ j) (hj : j ≤ s.length) :
    (s.cut j).Rest (ofText (s.slice i j)) i where
  text := s.slice_eq i j
  le := by rwa [length_cut hj]

theorem length_slice (hij : i ≤ j) (hj : j ≤ s.length) : (s.slice i j).length + i = j := by
  rw [← length_ofText, ← (rest_slice hij hj).length, length_cut hj]

/-- A text is read from its start as what the source up to its end holds from there on. -/
theorem expression_cut (hij : i ≤ j) (hj : j ≤ s.length) :
    expression (s.cut j) ⟨i, 0⟩ =
      (expression (.ofText (s.slice i j)) ⟨0, 0⟩).carry i (.mapSpans (.carry s i)) := by
  have hcarry := expression_carries (rest_slice hij hj) ⟨0, 0⟩
  rw [Cursor.carry, Nat.zero_add] at hcarry
  rw [hcarry]
  cases hread : expression (.ofText (s.slice i j)) ⟨0, 0⟩ with
  | failed f => rfl
  | ok d e =>
    -- Places in the text are up to its end, where both sources have the same places.
    obtain ⟨-, ts, hl, he⟩ := expression_reads (Nat.zero_le _) rfl hread
    have hplace {p : Position} (hp : p = (ofText (s.slice i j)).position p.offset) :
        (s.cut j).carry i p = s.carry i p := by
      have hle : p.offset ≤ (s.slice i j).length := by
        rw [hp, position_offset, length_ofText]
        exact Nat.min_le_right _ _
      have hlen := length_slice hij hj
      exact (copied_cut hj).position (by omega)
    refine congrArg (Result.ok _) (e.mapSpans_congr fun m hm => ?_)
    have hm := (he.spanned (Nat.zero_le _) hl.after_here).placed m hm
    rw [Span.carry, Span.carry, hplace hm.start, hplace hm.stop]

/-- What is read whole as a text of its own is what is read where the source stops after it. -/
theorem rereads_iff (hij : i ≤ j) (hj : j ≤ s.length) :
    s.Rereads i j e ↔ expression (s.cut j) ⟨i, 0⟩ = .ok ⟨j, 0⟩ e := by
  have hlen := length_slice hij hj
  rw [Rereads, expression_cut hij hj]
  constructor
  · rintro ⟨e', hread, rfl⟩
    rw [hread, Result.carry, Cursor.carry, hlen]
  · intro h
    cases hread : expression (.ofText (s.slice i j)) ⟨0, 0⟩ with
    | failed f =>
      rw [hread] at h
      cases h
    | ok d e' =>
      rw [hread, Result.carry, Result.ok.injEq] at h
      obtain ⟨hd, he⟩ := h
      obtain ⟨offset, depth⟩ := d
      obtain ⟨hoffset, rfl⟩ : offset + i = j ∧ depth = 0 := Cursor.mk.inj hd
      obtain rfl : offset = (s.slice i j).length := by omega
      exact ⟨e', rfl, he⟩

theorem Rereads.of_derives {n : Nat} (hi : i ≤ s.length) (hl : s.LexedAt i ts j)
    (h : DerivesExpr 128 n ts e) : s.Rereads i j e := by
  obtain ⟨hij, hj⟩ := hl.bounds hi
  have hi' := (rest_slice (Nat.le_of_lt hij) hj).le
  have hl' := (copied_cut hj).lexedAt_start hl (Nat.le_refl j) hi
  have hend : (s.cut j).Stops 1 j := by
    have hstop := noTriviaAt_length.skip_eq (Nat.le_refl (s.cut j).length)
    rw [length_cut hj] at hstop
    exact .inl (hstop.trans (length_cut hj).symm)
  have h := h.loosen (Nat.le_refl 1) h.level_bounds.1
  exact (rereads_iff (Nat.le_of_lt hij) hj).2 (expression_accepts (c := ⟨i, 0⟩) hi' rfl hl' h hend)

/-- Tokens that are read again have the partners of all their parentheses. -/
theorem Rereads.matched (hi : i ≤ s.length) (hl : s.LexedAt i ts j) (h : s.Rereads i j e) :
    Matched ts := by
  obtain ⟨hij, hj⟩ := hl.bounds hi
  have hi' := (rest_slice (Nat.le_of_lt hij) hj).le
  have hok := (rereads_iff (Nat.le_of_lt hij) hj).1 h
  obtain ⟨-, us, hl', he⟩ := expression_reads (c := ⟨i, 0⟩) hi' rfl hok
  have hts := (copied_cut hj).lexedAt_start hl (Nat.le_refl j) hi
  have hend : (s.cut j).TriviaAt j (s.cut j).length := by
    rw [length_cut hj]
    exact .refl j
  -- There is only one way to read what stands there as tokens up to the end.
  obtain ⟨vs, rfl, hvs⟩ := hts.after_here.prefix_of_all hl'.after_here hend hi'
  obtain ⟨rfl, -⟩ | ⟨m, ht, hvs⟩ := hvs
  · rw [List.append_nil] at he
    exact he.closed.matched
  · have hj' := Nat.le_of_eq (length_cut hj).symm
    obtain ⟨hjm, hm⟩ := ht.bounds hj'
    have hmj : m < j := (hvs.bounds hm).1
    exact absurd hjm (Nat.not_le_of_lt hmj)

theorem LexedAt.inside {k : Nat} {opens inside closes : List Token} (hi : i ≤ s.length)
    (hl : s.LexedAt i ts j) (h : e.Spread k ts opens inside closes) :
    s.LexedAt e.span.start.offset inside e.span.stop.offset := by
  have hl := hl.after_here
  rw [h.tokens] at hl
  obtain ⟨m, hm, hl⟩ := hl.split hi
  have hm := (hm.bounds hi).2
  obtain ⟨l, hl, -⟩ := hl.split hm
  have hin := hl.at hm h.ne_nil
  obtain ⟨hml, hlen⟩ := hin.bounds (skip_le hm)
  rw [h.span, hin.extent, position_offset, position_offset, Nat.min_eq_left hlen,
    Nat.min_eq_left (skip_le hm)]
  exact hin

end Source

namespace Grammar

/-- The expression in `(a)+b;`. -/
def groupedSum : Expr :=
  .binary .add (.name ⟨"a", ⟨⟨1, 2, 1⟩, ⟨1, 3, 2⟩⟩⟩) (.name ⟨"b", ⟨⟨1, 5, 4⟩, ⟨1, 6, 5⟩⟩⟩)
    ⟨⟨1, 2, 1⟩, ⟨1, 6, 5⟩⟩

theorem program_groupedSum :
    ∃ p, program (.ofText "(a)+b;") ⟨0, 0⟩ = .ok ⟨6, 0⟩ p ∧
      (Node.program p).Contains (.expr groupedSum) := by
  have hp : program (.ofText "(a)+b;") ⟨0, 0⟩ = .ok ⟨6, 0⟩
      ⟨[.expression groupedSum ⟨⟨1, 1, 0⟩, ⟨1, 7, 6⟩⟩], ⟨⟨1, 1, 0⟩, ⟨1, 7, 6⟩⟩⟩ := by rfl
  exact ⟨_, hp, .child (List.mem_singleton_self _) (.child (List.mem_singleton_self _) (.self _))⟩

/-- What the span of an expression of a program covers is read, as a text of its own, as that
expression if and only if its parentheses are in pairs, as they are but for operations and calls.
What is missing is always parentheses that open right before the span and close right after it: with
them the expression is read again. -/
theorem expressions_reparse {s : Source} {o : Nat} {d : Cursor} {p : Program} {e : Expr}
    (ho : o ≤ s.length) (hp : program s ⟨o, 0⟩ = .ok d p)
    (he : (Node.program p).Contains (.expr e)) :
    ∃ ts, s.LexedAt e.span.start.offset ts e.span.stop.offset ∧
      (s.Rereads e.span.start.offset e.span.stop.offset e ↔ Matched ts) ∧
      (e.isJoined = false → Matched ts) ∧
      ∃ opens closes i j, (∀ t ∈ opens, t.kind = .mark "(") ∧ (∀ t ∈ closes, t.kind = .mark ")") ∧
        s.LexedAt i (opens ++ (ts ++ closes)) j ∧ s.Rereads i j e := by
  obtain ⟨ts, m, hl, ht, hs, hd, -⟩ := program_lexed ho hp
  have hrow := hs.row (q := False) ho hl False.elim
  -- The expression stands somewhere with the parentheses around it.
  obtain ⟨i, j, hread⟩ : ∃ i j, (Node.expr e).ReadAt s False 128 i j := by
    cases he with
    | child hc h =>
      obtain ⟨a, b, hr⟩ := hrow.mem hc
      exact hr.expr_of_contains h
  cases hread with
  | expr hi hl h =>
    obtain ⟨opens, inside, closes, hspread⟩ := h.spread hi hl.after_here
    have hin := hl.inside hi hspread
    have hstart : e.span.start.offset ≤ s.length := by
      have hbounds := (h.spanned hi hl.after_here).bounds
      have := hl.bounds hi
      omega
    refine ⟨inside, hin, ⟨fun h => h.matched hstart hin, fun hm => ?_⟩, hspread.matched, opens,
      closes, i, j, hspread.opens, hspread.closes, ?_, .of_derives hi hl h⟩
    · exact .of_derives hstart hin (hspread.derives hm)
    · rwa [← hspread.tokens]

theorem expressions_reparse_sum :
    ∃ p, program (.ofText "(a)+b;") ⟨0, 0⟩ = .ok ⟨6, 0⟩ p ∧
      (Node.program p).Contains (.expr groupedSum) ∧
      ∃ ts, (ofText "(a)+b;").LexedAt 1 ts 5 ∧
        ((ofText "(a)+b;").Rereads 1 5 groupedSum ↔ Matched ts) ∧
        ∃ opens closes i j, (ofText "(a)+b;").LexedAt i (opens ++ (ts ++ closes)) j ∧
          (ofText "(a)+b;").Rereads i j groupedSum := by
  obtain ⟨p, hp, he⟩ := program_groupedSum
  obtain ⟨ts, hl, hiff, -, opens, closes, i, j, -, -, hlex, hread⟩ :=
    expressions_reparse (Nat.zero_le _) hp he
  exact ⟨p, hp, he, ts, hl, hiff, opens, closes, i, j, hlex, hread⟩

/-- In `(a)+b;` the span of the sum starts inside the parentheses, and what it covers is read as the
name alone. -/
theorem spans_cut_parentheses :
    ¬ ∀ (s : Source) (d : Cursor) (p : Program) (e : Expr), program s ⟨0, 0⟩ = .ok d p →
      (Node.program p).Contains (.expr e) →
      s.Rereads e.span.start.offset e.span.stop.offset e := by
  intro h
  obtain ⟨p, hp, he⟩ := program_groupedSum
  obtain ⟨e, hread, -⟩ := h _ _ _ _ hp he
  have hstop : (expression (.ofText ((ofText "(a)+b;").slice 1 5)) ⟨0, 0⟩).stop? = some ⟨1, 0⟩ := by
    decide +kernel
  have hread : expression (.ofText ((ofText "(a)+b;").slice 1 5)) ⟨0, 0⟩ = .ok ⟨4, 0⟩ e := hread
  rw [hread] at hstop
  cases hstop

end Grammar

end BrookSyntax
