import BrookSyntax.Proofs.Accepts
import BrookSyntax.Proofs.ExprSoundness

namespace BrookSyntax

open BrookSyntax.Parser Source

theorem TokenKind.StartsExpr.ne_unary {kind : TokenKind} (h : kind.StartsExpr 9) (op : UnaryOp)
    (m : Text) (hpre : op.symbol <+: m) : kind ≠ .mark m := by
  rintro rfl
  obtain rfl | ⟨hle, -⟩ := h
  · revert hpre
    cases op <;> decide
  · omega

theorem DerivesItems.repeated {k : Nat} {ts : List Token} {es : List Expr}
    (h : DerivesItems k ts es) :
    ∃ us vs e rest, us ++ vs = ts ∧ e :: rest = es ∧ DerivesExpr k 1 us e ∧
      Repeated (fun ws e => ∃ a xs, Token.mark "," a :: xs = ws ∧ DerivesExpr k 1 xs e) vs
        rest := by
  induction h using DerivesItems.rec (motive_1 := fun _ _ _ _ _ => True)
    (motive_3 := fun _ _ _ _ => True) with
  | @single k ts e he => exact ⟨ts, [], e, [], List.append_nil ts, rfl, he, .nil⟩
  | @cons k ts us e es a he hs _ ih =>
    obtain ⟨vs, ws, e', rest, rfl, rfl, he', hrest⟩ := ih
    exact ⟨ts, _, e, _, rfl, rfl, he, .cons ⟨a, vs, rfl, he'⟩ hrest⟩
  | _ => trivial

theorem DerivesArgs.separated {k : Nat} {ts : List Token} {es : List Expr}
    (h : DerivesArgs k ts es) : Separated (DerivesExpr k 1) ts es := by
  cases h with
  | none => exact .inl ⟨rfl, rfl⟩
  | some h => exact .inr h.repeated

namespace Grammar

variable {inner : InnerExpr} {n : Nat} {s : Source} {c : Cursor} {j : Nat}

/-- The rules that expressions use further in accept what the grammar derives where one construct
less may be opened, and no closing parenthesis. -/
structure InnerExpr.Complete (inner : InnerExpr) (n : Nat) : Prop where
  assignment : ∀ k, n = k + 1 → inner.assignment.Accepts k (DerivesExpr k 1) (Source.Stops · 1)
  unary : ∀ k, n = k + 1 → inner.unary.Accepts k (DerivesExpr k 8) (Source.Stops · 8)
  declines : ∀ k, n = k + 1 → ∀ s c j, s.TokenAt c.offset (.mark ")") j →
    inner.assignment.Declines s c

theorem stops_of_closing (s : Source) (i : Nat) (m : Text) (k : Nat) (hm : m = "," ∨ m = ")")
    (h : s.TokenAt (s.skip i) (.mark m) k) : s.Stops 1 i := by
  refine .inr ⟨_, k, h, TokenKind.stops_of_mem ?_ 1⟩
  rcases hm with rfl | rfl <;> decide

theorem number_accepts {x : Binary64} {a : Span} (hc : c.offset ≤ s.length)
    (hl : s.LexedAt c.offset [⟨.number x, a⟩] j) :
    number s c = .ok ⟨j, c.depth⟩ (.number x a) := by
  obtain ⟨ht, ha⟩ := hl.of_single
  exact (number_eq_ok hc).2 ⟨x, ht, rfl, congrArg (Expr.number x) ha⟩

theorem string_accepts {v : Text} {a : Span} (hc : c.offset ≤ s.length)
    (hl : s.LexedAt c.offset [⟨.string v, a⟩] j) :
    string s c = .ok ⟨j, c.depth⟩ (.string v a) := by
  obtain ⟨ht, ha⟩ := hl.of_single
  exact (string_eq_ok hc).2 ⟨v, ht, rfl, congrArg (Expr.string v) ha⟩

theorem keyword_accepts {α : Type} {w : Text} {a : Span} (f : Span → α) (hw : w ∈ keywords)
    (hc : c.offset ≤ s.length) (hl : s.LexedAt c.offset [.keyword w a] j) :
    mapSpan (keyword w) (fun _ span => f span) s c = .ok ⟨j, c.depth⟩ (f a) := by
  obtain ⟨ht, ha⟩ := hl.of_single
  exact mapSpan_eq_ok.2 ⟨w, (keyword_eq_ok hc hw).2 ⟨ht, rfl, rfl⟩, congrArg f ha.symm⟩

theorem name_accepts {w : Text} {a : Span} (hl : s.LexedAt c.offset [.name w a] j) :
    name s c = .ok ⟨j, c.depth⟩ ⟨w, a⟩ := by
  obtain ⟨ht, ha⟩ := hl.of_single
  exact name_eq_ok.2 ⟨ht, rfl, ha⟩

theorem parenthesized_accepts {k : Nat} {ts : List Token} {a b : Span} {e : Expr}
    (h : inner.Complete (k + 1)) (hc : c.offset ≤ s.length) (hn : c.room = k + 1)
    (hl : s.LexedAt c.offset (.mark "(" a :: (ts ++ [.mark ")" b])) j)
    (he : DerivesExpr k 1 ts e) : parenthesized inner s c = .ok ⟨j, c.depth⟩ e := by
  obtain ⟨i, hi, -, hl⟩ := hl.uncons hc (by simp)
  have hlen := (hi.bounds hc).2
  have hskip := skip_le hlen
  obtain ⟨m, hm, hclose⟩ := hl.split hskip he.ne_nil (List.cons_ne_nil _ _)
  have hclose := hclose.of_single.1
  have hmlen := (hm.bounds hskip).2
  have hstops : s.Stops 1 m := stops_of_closing s m ")" j (.inr rfl) hclose
  have hbody := h.assignment k rfl (c := ⟨s.skip i, c.depth + 1⟩) hskip (room_succ hn) hm he hstops
  have hend : spaced (literal ")") s ⟨m, c.depth + 1⟩ = .ok ⟨j, c.depth + 1⟩ ")" :=
    literal_at (c := ⟨_, c.depth + 1⟩) (skip_le hmlen) hclose
  have hbetween : between trivia inner.assignment (spaced (literal ")")) s ⟨i, c.depth + 1⟩ =
      .ok ⟨j, c.depth + 1⟩ e := between_eq_ok.2 ⟨_, (), _, _, rfl, hbody, hend⟩
  have hdeep := deeper_of_room (c := ⟨i, c.depth⟩) hn hbetween
  exact seqRight_eq_ok.2 ⟨_, _, literal_at hc hi, committed_eq_ok.2 hdeep⟩

theorem constant_accepts {w : Text} {a : Span} {e : Expr} (hc : c.offset ≤ s.length)
    (hl : s.LexedAt c.offset [.keyword w a] j)
    (he : w = "true" ∧ e = .bool true a ∨ w = "false" ∧ e = .bool false a ∨
      w = "null" ∧ e = .null a) : constant s c = .ok ⟨j, c.depth⟩ e := by
  have hother {w' : Text} (hw : w' ∈ keywords) (hne : w ≠ w') (f : Span → Expr) :
      (mapSpan (keyword w') fun _ span => f span).Declines s c := by
    apply (keyword_declines_at hl.of_single.1 hw _).mapSpan _
    rintro ⟨⟩
    exact hne rfl
  obtain ⟨rfl, rfl⟩ | ⟨rfl, rfl⟩ | ⟨rfl, rfl⟩ := he
  · exact choice_take (keyword_accepts (Expr.bool true) (by decide) hc hl)
  · apply choice_skip (hother (by decide) (by decide) _)
    exact choice_take (keyword_accepts (Expr.bool false) (by decide) hc hl)
  · apply choice_skip (hother (by decide) (by decide) _)
    apply choice_skip (hother (by decide) (by decide) _)
    exact choice_take (keyword_accepts Expr.null (by decide) hc hl)

theorem primary_accepts (h : inner.Complete n) :
    (primary inner).Accepts n (DerivesExpr n 10) fun _ _ => True := by
  intro s c ts j e hc hn hl he _
  obtain ⟨t, rest, hts, -⟩ := he.starts
  obtain ⟨i, ht⟩ := (hts ▸ hl).head
  have hnumber (hne : ∀ x, t.kind ≠ .number x) : number.Declines s c := number_declines_at ht hne
  have hstring (hne : ∀ x, t.kind ≠ .string x) : string.Declines s c := string_declines_at ht hne
  have hconstant (hne : ∀ w, t.kind ≠ .keyword w) : constant.Declines s c :=
    constant_declines_at ht fun w _ => hne w
  have hname (hne : ∀ w, t.kind ≠ .name w) : (Expr.name <$> name).Declines s c :=
    (name_declines_at ht hne).map _
  cases he with
  | number x a => exact choice_take (number_accepts hc hl)
  | string v a =>
    cases hts
    exact choice_skip (hnumber (by simp)) (choice_take (string_accepts hc hl))
  | true a =>
    cases hts
    apply choice_skip (hnumber (by simp))
    apply choice_skip (hstring (by simp))
    exact choice_take (constant_accepts hc hl (.inl ⟨rfl, rfl⟩))
  | false a =>
    cases hts
    apply choice_skip (hnumber (by simp))
    apply choice_skip (hstring (by simp))
    exact choice_take (constant_accepts hc hl (.inr (.inl ⟨rfl, rfl⟩)))
  | null a =>
    cases hts
    apply choice_skip (hnumber (by simp))
    apply choice_skip (hstring (by simp))
    exact choice_take (constant_accepts hc hl (.inr (.inr ⟨rfl, rfl⟩)))
  | name w a =>
    cases hts
    apply choice_skip (hnumber (by simp))
    apply choice_skip (hstring (by simp))
    apply choice_skip (hconstant (by simp))
    exact choice_take (map_eq_ok.2 ⟨_, name_accepts hl, rfl⟩)
  | group a b he =>
    obtain ⟨rfl, -⟩ := List.cons.inj hts
    apply choice_skip (hnumber (by simp))
    apply choice_skip (hstring (by simp))
    apply choice_skip (hconstant (by simp))
    apply choice_skip (hname (by simp))
    exact choice_take (parenthesized_accepts h hc hn hl he)
  | @binary _ _ _ _ _ _ op a hop hl hr =>
    have := op.precedence_bounds
    omega
  | tighter _ he =>
    have := he.level_bounds
    omega

theorem arguments_accepts {k : Nat} {ts : List Token} {a b : Span} {es : List Expr}
    (h : inner.Complete (k + 1)) (hc : c.offset ≤ s.length) (hn : c.room = k + 1)
    (hl : s.LexedAt c.offset (.mark "(" a :: (ts ++ [.mark ")" b])) j)
    (he : DerivesArgs k ts es) : arguments inner s c = .ok ⟨j, c.depth⟩ es := by
  obtain ⟨i, hi, -, hl⟩ := hl.uncons hc (by simp)
  have hlen := (hi.bounds hc).2
  have hbody := closed_accepts (c := ⟨i, c.depth + 1⟩) (h.assignment k rfl)
    (fun ts e he => he.ne_nil) stops_of_closing (h.declines k rfl) he.separated hlen (room_succ hn)
    (hl.after hlen)
  have hdeep := deeper_of_room (c := ⟨i, c.depth⟩) hn hbody
  exact seqRight_eq_ok.2 ⟨_, _, literal_at hc hi, committed_eq_ok.2 hdeep⟩

theorem call_accepts (h : inner.Complete n) :
    (mapSpan (spaced (arguments inner)) fun args span => (args, span.stop)).AcceptsAfter n
      (DerivesCall n) fun _ _ => True := by
  rintro s c _ j ⟨args, _⟩ hc hn hl ⟨k, a, us, b, rfl, rfl, hargs, rfl⟩ -
  have hat := hl.at hc (List.cons_ne_nil _ _)
  have hok := arguments_accepts (c := ⟨_, c.depth⟩) h (skip_le hc) hn hat hargs
  refine mapSpan_eq_ok.2 ⟨args, hok, ?_⟩
  have hstop := hl.extent (List.cons_ne_nil _ _)
  rw [Token.extent_stop] at hstop
  rw [Cursor.spanTo, hstop]

theorem called_accepts (h : inner.Complete n) :
    (called inner).Accepts n (DerivesExpr n 9) (Source.Stops · 9) := by
  intro s c ts j e hc hn hl he hf
  obtain ⟨us, vs, head, calls, rfl, hhead, hs, rfl⟩ := he.calls
  obtain ⟨i, hi, hl⟩ := hl.split_after hc hhead.ne_nil
  have hlen := (hi.bounds hc).2
  have hok := primary_accepts h hc hn hi hhead trivial
  have hnext : ∀ ts call, DerivesCall n ts call → ∃ t rest, ts = t :: rest ∧
      ∀ i k, s.TokenAt (s.skip i) t.kind k → True := by
    rintro ts call ⟨k, a, us, b, -, rfl, -⟩
    exact ⟨_, _, rfl, fun _ _ _ => trivial⟩
  have hchain := Chain.of_repeated (c := ⟨i, c.depth⟩) (call_accepts h) hnext hs hlen hn hl trivial
  have hstop : (mapSpan (spaced (arguments inner)) fun args span =>
      (args, span.stop)).Declines s ⟨j, c.depth⟩ := by
    apply Declines.mapSpan
    exact ((literal_declines (hf.not_call (by decide))).seqRight _).spaced
  have hmany := hchain.many_eq (hl.bounds hlen).2 hstop
  exact bind_eq_ok.2 ⟨_, _, hok, bind_eq_ok.2 ⟨_, _, hmany, rfl⟩⟩

theorem unary_accepts (h : inner.Complete n) :
    (unary inner).Accepts n (DerivesExpr n 8) (Source.Stops · 8) := by
  intro s c ts j e hc hn hl he hf
  apply describedAs_eq_ok.2
  cases he with
  | @unary k ts e op a he =>
    have hspan := hl.extent
    obtain ⟨i, hi, -, hl⟩ := hl.uncons hc he.ne_nil
    have hlen := (hi.bounds hc).2
    obtain ⟨hat, hj⟩ := hi.hasAt_mark
    have hop : unaryOp s c = .ok ⟨i, c.depth⟩ op := (unaryOp_eq_ok hc).2 ⟨hat, by rw [hj]⟩
    have hbody := h.unary k rfl (c := ⟨s.skip i, c.depth + 1⟩) (skip_le hlen) (room_succ hn) hl he
      hf
    have hdeep := deeper_of_room (c := ⟨s.skip i, c.depth⟩) hn hbody
    refine choice_take (mapSpan_eq_ok.2 ⟨(op, e), ?_, by rw [hspan]; rfl⟩)
    exact bind_eq_ok.2 ⟨_, _, hop, bind_eq_ok.2 ⟨_, _, committed_eq_ok.2 hdeep, rfl⟩⟩
  | @binary _ _ _ _ _ _ op a hop hl hr =>
    have := op.precedence_bounds
    omega
  | tighter _ he =>
    obtain ⟨t, rest, hts, ht⟩ := he.starts
    obtain ⟨i, hi⟩ := (hts ▸ hl).head
    apply choice_skip (((unaryOp_declines_at hi ht.ne_unary).bind _).mapSpan _)
    exact choice_take (called_accepts h hc hn hl he (hf.mono (by decide)))

theorem operation_accepts {m : Nat} {ops : List BinaryOp} {operand : Parser Expr}
    (hops : ops ∈ BinaryOp.levels) (hm : ∀ op : BinaryOp, op.precedence = m → op ∈ ops)
    (h : operand.Accepts n (DerivesExpr n (m + 1)) (Source.Stops · (m + 1))) :
    (operation ops operand).AcceptsAfter n (DerivesOperation n m) (Source.Stops · (m + 1)) := by
  rintro s c _ j ⟨op, right⟩ hc hn hl ⟨a, us, rfl, hprec, hr⟩ hf
  have hat := hl.at hc (List.cons_ne_nil _ _)
  obtain ⟨i, hi, -, hl⟩ := hat.uncons (skip_le hc) hr.ne_nil
  have hlen := (hi.bounds (skip_le hc)).2
  have hop : spaced (binaryOp ops) s c = .ok ⟨i, c.depth⟩ op :=
    (binaryOp_eq_ok (c := ⟨_, c.depth⟩) hops (skip_le hc) (noTriviaAt_skip hc)).2
      ⟨hm op hprec, hi, rfl⟩
  have hright : spaced operand s ⟨i, c.depth⟩ = .ok ⟨j, c.depth⟩ right :=
    h (c := ⟨_, c.depth⟩) (skip_le hlen) hn hl hr hf
  exact bind_eq_ok.2 ⟨_, _, hop, bind_eq_ok.2 ⟨_, _, committed_eq_ok.2 hright, rfl⟩⟩

theorem binary_accepts {m : Nat} {ops : List BinaryOp} {operand : Parser Expr}
    (hops : ops ∈ BinaryOp.levels) (hm : ∀ op : BinaryOp, op.precedence = m ↔ op ∈ ops)
    (h2 : 2 ≤ m) (h7 : m ≤ 7)
    (h : operand.Accepts n (DerivesExpr n (m + 1)) (Source.Stops · (m + 1))) :
    (binary ops operand).Accepts n (DerivesExpr n m) (Source.Stops · m) := by
  intro s c ts j e hc hn hl he hf
  obtain ⟨us, vs, head, rest, rfl, hhead, hs, rfl⟩ := he.operations h2 h7
  obtain ⟨i, hi, hl⟩ := hl.split_after hc hhead.ne_nil
  have hlen := (hi.bounds hc).2
  have hnext : ∀ ts next, DerivesOperation n m ts next → ∃ t rest, ts = t :: rest ∧
      ∀ i k, s.TokenAt (s.skip i) t.kind k → s.Stops (m + 1) i := by
    rintro _ ⟨op, right⟩ ⟨a, us, rfl, hprec, -⟩
    exact ⟨_, us, rfl, fun i k hk => .inr ⟨_, k, hk, BinaryOp.stops (by omega)⟩⟩
  have hend : s.Stops (m + 1) j := hf.mono (Nat.le_succ m)
  have hfirst : s.Stops (m + 1) i := by
    cases hs with
    | nil =>
      obtain rfl := hl.of_nil
      exact hend
    | cons hr _ =>
      obtain ⟨t, rest, rfl, ht⟩ := hnext _ _ hr
      obtain ⟨k, hk⟩ := (hl.at hlen (List.cons_ne_nil _ _)).head
      exact ht i k hk
  have hok := h hc hn hi hhead hfirst
  have hoperation := operation_accepts hops (fun op => (hm op).1) h
  have hchain := Chain.of_repeated (c := ⟨i, c.depth⟩) hoperation hnext hs hlen hn hl hend
  have hstop : (operation ops operand).Declines s ⟨j, c.depth⟩ := by
    apply Declines.bind
    apply Declines.spaced
    apply choice_literals_declines
    intro op hop
    exact hf.not_operator (Nat.le_of_eq ((hm op).2 hop).symm)
  have hmany := hchain.many_eq (hl.bounds hlen).2 hstop
  exact bind_eq_ok.2 ⟨_, _, hok, bind_eq_ok.2 ⟨_, _, hmany, rfl⟩⟩

theorem binaries_accepts (h : inner.Complete n) :
    (binaries inner).Accepts n (DerivesExpr n 2) (Source.Stops · 2) := by
  apply binary_accepts (by decide) (fun op => by cases op <;> decide) (by decide) (by decide)
  apply binary_accepts (by decide) (fun op => by cases op <;> decide) (by decide) (by decide)
  apply binary_accepts (by decide) (fun op => by cases op <;> decide) (by decide) (by decide)
  apply binary_accepts (by decide) (fun op => by cases op <;> decide) (by decide) (by decide)
  apply binary_accepts (by decide) (fun op => by cases op <;> decide) (by decide) (by decide)
  apply binary_accepts (by decide) (fun op => by cases op <;> decide) (by decide) (by decide)
  exact unary_accepts h

theorem assignSign_declines (hc : c.offset ≤ s.length)
    (h : ∀ k, ¬ s.TokenAt c.offset (.mark "=") k) : assignSign.Declines s c := by
  apply literalBefore_declines
  intro hat
  rw [← Bool.not_eq_false]
  intro hf
  have hok : assignSign s c = .ok _ _ := (literalBefore_eq_ok hc).2 ⟨hat, hf, rfl, rfl⟩
  exact h _ ((assignSign_eq_ok hc).1 hok).1

theorem target_declines {α : Type} {k m : Nat} {ts : List Token} {e : Expr}
    (hc : c.offset ≤ s.length) (hl : s.LexedAt c.offset ts j) (he : DerivesExpr k m ts e)
    (hm : 2 ≤ m) (hf : s.Stops 1 j) (f : Name → Expr → Parser α) :
    (do
      let target ← name
      let value ← spaced assignSign *> committed (spaced (deeper inner.assignment))
      f target value).Declines s c := by
  have sign {i : Nat} {w : Text} (hi : s.TokenAt c.offset (.name w) i)
      (hnot : ∀ k, ¬ s.TokenAt (s.skip i) (.mark "=") k) : (do
        let target ← name
        let value ← spaced assignSign *> committed (spaced (deeper inner.assignment))
        f target value).Declines s c := by
    have hname : name s c = .ok ⟨i, c.depth⟩ ⟨w, c.spanTo ⟨i, c.depth⟩ s⟩ :=
      name_eq_ok.2 ⟨hi, rfl, rfl⟩
    have hdec := assignSign_declines (c := ⟨s.skip i, c.depth⟩) (skip_le (hi.bounds hc).2) hnot
    exact Declines.bind_right hname ((hdec.spaced.seqRight _).bind _)
  obtain ⟨t, rest, rfl, -⟩ := he.starts
  obtain ⟨i, hi⟩ := hl.head
  by_cases hname : ∃ w, t.kind = .name w
  · obtain ⟨w, hw⟩ := hname
    cases rest with
    | nil =>
      have hj := hl.of_single.1
      rw [hw] at hj
      exact sign hj hf.not_sign
    | cons u rest =>
      obtain ⟨i, hi, -, hl⟩ := hl.uncons hc (List.cons_ne_nil _ _)
      rw [hw] at hi
      apply sign hi
      intro k hk
      obtain ⟨k', hu⟩ := hl.head
      obtain ⟨m', hm', -, -⟩ := hu.mark_of_hasAt (by decide) hk.hasAt_mark.1
      rw [hm'] at hu
      obtain rfl := hu.mark_unique hk
      exact he.second hm rfl hw hm'
  · exact (name_declines_at hi fun w hw => hname ⟨w, hw⟩).bind _

theorem assignment_accepts (h : inner.Complete n) :
    (assignment inner).Accepts n (DerivesExpr n 1) (Source.Stops · 1) := by
  intro s c ts j e hc hn hl he hf
  apply describedAs_eq_ok.2
  cases he with
  | @assign k ts e w a b he =>
    have hspan := hl.extent
    obtain ⟨i, hi, ha, hl⟩ := hl.uncons hc (List.cons_ne_nil _ _)
    have hlen := (hi.bounds hc).2
    obtain ⟨m, hm, -, hl⟩ := hl.uncons (skip_le hlen) he.ne_nil
    have hmlen := (hm.bounds (skip_le hlen)).2
    have hname : name s c = .ok ⟨i, c.depth⟩ ⟨w, a⟩ := name_eq_ok.2 ⟨hi, rfl, ha⟩
    have hsign : spaced assignSign s ⟨i, c.depth⟩ = .ok ⟨m, c.depth⟩ "=" :=
      (assignSign_eq_ok (c := ⟨_, c.depth⟩) (skip_le hlen)).2 ⟨hm, rfl, rfl⟩
    have hbody := h.assignment k rfl (c := ⟨s.skip m, c.depth + 1⟩) (skip_le hmlen) (room_succ hn)
      hl he hf
    have hdeep := deeper_of_room (c := ⟨s.skip m, c.depth⟩) hn hbody
    have hvalue : (spaced assignSign *> committed (spaced (deeper inner.assignment))) s
        ⟨i, c.depth⟩ = .ok ⟨j, c.depth⟩ e :=
      seqRight_eq_ok.2 ⟨_, _, hsign, committed_eq_ok.2 hdeep⟩
    refine choice_take (mapSpan_eq_ok.2 ⟨(⟨w, a⟩, e), ?_, by rw [hspan]; rfl⟩)
    exact bind_eq_ok.2 ⟨_, _, hname, bind_eq_ok.2 ⟨_, _, hvalue, rfl⟩⟩
  | @binary _ _ _ _ _ _ op a hop hl hr =>
    have := op.precedence_bounds
    omega
  | tighter _ he =>
    apply choice_skip ((target_declines hc hl he (by decide) hf _).mapSpan _)
    exact choice_take (binaries_accepts h hc hn hl he (hf.mono (by decide)))

theorem InnerExpr.ofLevels_complete (n : Nat) : (InnerExpr.ofLevels n).Complete n := by
  induction n with
  | zero => exact ⟨fun k hk => (nomatch hk), fun k hk => (nomatch hk), fun k hk => (nomatch hk)⟩
  | succ n ih =>
    refine ⟨?_, ?_, ?_⟩
    · intro k hk
      cases hk
      exact assignment_accepts ih
    · intro k hk
      cases hk
      exact unary_accepts ih
    · intro k hk s c j h
      cases hk
      exact assignment_declines_at h (.inl rfl)

/-- The parser of expressions accepts all that the grammar derives. -/
theorem expression_accepts : expression.Accepts n (DerivesExpr n 1) (Source.Stops · 1) := by
  intro s c ts j e hc hn hl he hf
  have hok := assignment_accepts (InnerExpr.ofLevels_complete n) hc hn hl he hf
  rw [← hn] at hok
  exact labelled_eq_ok.2 hok

theorem expression_declines_at (h : s.TokenAt c.offset (.mark ";") j) :
    expression.Declines s c := by
  have hdec : (assignment (.ofLevels c.room)).Declines s c := assignment_declines_at h (.inr rfl)
  obtain ⟨f, hf, hcom⟩ := hdec.labelled "expression"
  exact ⟨f, hf, hcom⟩

end Grammar

end BrookSyntax
