import BrookSyntax.Proofs.Lookahead

namespace BrookSyntax

open Source

theorem Source.skip_skip {s : Source} {i : Nat} (hi : i ≤ s.length) :
    s.skip (s.skip i) = s.skip i := (noTriviaAt_skip hi).skip_eq (skip_le hi)

namespace Parser

variable {α β : Type} {n : Nat} {s : Source} {c : Cursor} {i j : Nat}

/-- Where tokens in a relation to a value stand at a cursor with room for `n` constructs more inside
one another, and what follows them is as it should be, the parser reads them and gives the value. -/
def Accepts (p : Parser α) (n : Nat) (R : List Token → α → Prop) (F : Source → Nat → Prop) : Prop :=
  ∀ ⦃s : Source⦄ ⦃c : Cursor⦄ ⦃ts : List Token⦄ ⦃j : Nat⦄ ⦃a : α⦄, c.offset ≤ s.length →
    c.room = n → s.LexedAt c.offset ts j → R ts a → F s j → p s c = .ok ⟨j, c.depth⟩ a

/-- The same, but for trivia before the first token. -/
def AcceptsAfter (p : Parser α) (n : Nat) (R : List Token → α → Prop) (F : Source → Nat → Prop) :
    Prop :=
  ∀ ⦃s : Source⦄ ⦃c : Cursor⦄ ⦃ts : List Token⦄ ⦃j : Nat⦄ ⦃a : α⦄, c.offset ≤ s.length →
    c.room = n → s.LexedAfter c.offset ts j → R ts a → F s j → p s c = .ok ⟨j, c.depth⟩ a

theorem literal_at {m : Text} (hc : c.offset ≤ s.length) (h : s.TokenAt c.offset (.mark m) j) :
    literal m s c = .ok ⟨j, c.depth⟩ m := by
  obtain ⟨hat, hj⟩ := h.hasAt_mark
  exact (literal_eq_ok hc).2 ⟨hat, by rw [hj], rfl⟩

theorem spaced_literal_at {m : Text} {a : Span} {ts : List Token} (hc : c.offset ≤ s.length)
    (h : s.LexedAfter c.offset (.mark m a :: ts) j) :
    ∃ i, spaced (literal m) s c = .ok ⟨i, c.depth⟩ m ∧ i ≤ s.length ∧ s.LexedAfter i ts j := by
  have hcons : s.LexedAfter c.offset ([.mark m a] ++ ts) j := h
  obtain ⟨i, hi, hl⟩ := hcons.split hc
  have ht := (hi.at hc (List.cons_ne_nil _ _)).of_single.1
  exact ⟨i, literal_at (c := ⟨_, c.depth⟩) (skip_le hc) ht, (hi.bounds hc).2, hl⟩

theorem choice_take {p : Parser α} {ps : List (Parser α)} {d : Cursor} {a : α}
    (hp : p s c = .ok d a) : choice (p :: ps) s c = .ok d a := choice_cons_eq_ok.2 (.inl hp)

theorem choice_skip {p : Parser α} {ps : List (Parser α)} {d : Cursor} {a : α}
    (hp : p.Declines s c) (hps : choice ps s c = .ok d a) : choice (p :: ps) s c = .ok d a :=
  choice_cons_eq_ok.2 (.inr ⟨hp, hps⟩)

theorem choice_append {ps qs : List (Parser α)} {d : Cursor} {a : α}
    (hps : ∀ p ∈ ps, p.Declines s c) (hqs : choice qs s c = .ok d a) :
    choice (ps ++ qs) s c = .ok d a := by
  induction ps with
  | nil => exact hqs
  | cons p ps ih =>
    rw [List.forall_mem_cons] at hps
    exact choice_skip hps.1 (ih hps.2)

theorem deeper_of_room {p : Parser α} {k : Nat} {a : α} (hn : c.room = k + 1)
    (hp : p s ⟨c.offset, c.depth + 1⟩ = .ok ⟨j, c.depth + 1⟩ a) :
    deeper p s c = .ok ⟨j, c.depth⟩ a := by
  have hlt : c.depth < maxDepth := by
    simp only [Cursor.room, maxDepth] at hn ⊢
    omega
  exact deeper_eq_ok.2 ⟨hlt, _, hp, rfl⟩

theorem room_succ {k : Nat} (hn : c.room = k + 1) :
    (⟨c.offset, c.depth + 1⟩ : Cursor).room = k := by
  simp only [Cursor.room, maxDepth] at hn ⊢
  omega

/-- What may follow a stretch is at the end, and before any stretch that may come next. -/
theorem follow_of_repeated {R : List Token → α → Prop} {F : Source → Nat → Prop}
    {ts : List Token} {as : List α}
    (hnext : ∀ ts a, R ts a → ∃ t rest, ts = t :: rest ∧
      ∀ i k, s.TokenAt (s.skip i) t.kind k → F s i)
    (hs : Repeated R ts as) (hi : i ≤ s.length) (hl : s.LexedAfter i ts j) (hend : F s j) :
    F s i := by
  cases hs with
  | nil =>
    obtain rfl := hl.of_nil
    exact hend
  | cons hr _ =>
    obtain ⟨t, rest, rfl, ht⟩ := hnext _ _ hr
    obtain ⟨k, hk⟩ := (hl.at hi (List.cons_ne_nil _ _)).head
    exact ht i k hk

/-- Stretches of tokens that a parser accepts one by one are a chain, if what a stretch starts with
is what may follow the one before it. -/
theorem Chain.of_repeated {p : Parser α} {R : List Token → α → Prop} {F : Source → Nat → Prop}
    {ts : List Token} {as : List α} (hp : p.AcceptsAfter n R F)
    (hnext : ∀ ts a, R ts a → ∃ t rest, ts = t :: rest ∧
      ∀ i k, s.TokenAt (s.skip i) t.kind k → F s i)
    (hs : Repeated R ts as) (hc : c.offset ≤ s.length) (hn : c.room = n)
    (hl : s.LexedAfter c.offset ts j) (hend : F s j) : Chain p s c as ⟨j, c.depth⟩ := by
  induction hs generalizing c with
  | nil =>
    obtain rfl := hl.of_nil
    exact .nil c
  | @cons ts us a as hr hs ih =>
    obtain ⟨m, hm, hl⟩ := hl.split hc
    have hlen := (hm.bounds hc).2
    have hfollow : F s m := follow_of_repeated hnext hs hlen hl hend
    have hlt : c.offset < m := by
      obtain ⟨t, rest, rfl, -⟩ := hnext _ _ hr
      have hle := le_skip hc
      have hlt := ((hm.at hc (List.cons_ne_nil _ _)).bounds (skip_le hc)).1
      omega
    exact .cons (hp hc hn hm hr hfollow) hlt (ih (c := ⟨m, c.depth⟩) hlen hn hl)

theorem comma_accepts {item : Parser α} {R : List Token → α → Prop} {F : Source → Nat → Prop}
    (hitem : item.Accepts n R F) (hne : ∀ ts a, R ts a → ts ≠ []) :
    (Grammar.comma *> item).AcceptsAfter n
      (fun ts b => ∃ a us, .mark "," a :: us = ts ∧ R us b) F := by
  rintro s c _ j b hc hn hl ⟨a, us, rfl, hr⟩ hf
  obtain ⟨k, hk, hlen, hl⟩ := spaced_literal_at hc hl
  have hitem' := hitem (c := ⟨_, c.depth⟩) (skip_le hlen) hn (hl.at hlen (hne us b hr)) hr hf
  exact seqRight_eq_ok.2 ⟨⟨s.skip k, c.depth⟩, (), seqRight_eq_ok.2 ⟨_, _, hk, rfl⟩, hitem'⟩

/-- Items with commas between neighbours before a closing parenthesis. -/
theorem closed_accepts {item : Parser α} {R : List Token → α → Prop} {F : Source → Nat → Prop}
    (hitem : item.Accepts n R F) (hne : ∀ ts a, R ts a → ts ≠ [])
    (hnext : ∀ s i (m : Text) k, m = "," ∨ m = ")" → s.TokenAt (s.skip i) (.mark m) k → F s i)
    (hdeclines : ∀ s c k, s.TokenAt c.offset (.mark ")") k → item.Declines s c)
    {us : List Token} {b : Span} {as : List α} (hs : Separated R us as) (hc : c.offset ≤ s.length)
    (hn : c.room = n) (hl : s.LexedAfter c.offset (us ++ [.mark ")" b]) j) :
    between trivia (sepBy item Grammar.comma) (Parser.spaced (literal ")")) s c =
      .ok ⟨j, c.depth⟩ as := by
  obtain ⟨m, hm, hl⟩ := hl.split hc
  have hlen := (hm.bounds hc).2
  have hclose : s.TokenAt (s.skip m) (.mark ")") j :=
    (hl.at hlen (List.cons_ne_nil _ _)).of_single.1
  have hend {i : Nat} (hi : s.skip i = s.skip m) :
      Parser.spaced (literal ")") s ⟨i, c.depth⟩ = .ok ⟨j, c.depth⟩ ")" := by
    rw [spaced_apply, hi]
    exact literal_at (c := ⟨_, c.depth⟩) (skip_le hlen) hclose
  obtain ⟨rfl, rfl⟩ | ⟨vs, ws, a, rest, rfl, rfl, hr, hrest⟩ := hs
  · obtain rfl := hm.of_nil
    have hnone : sepBy item Grammar.comma s ⟨s.skip c.offset, c.depth⟩ =
        .ok ⟨s.skip c.offset, c.depth⟩ [] :=
      sepBy_eq_ok.2 (.inl ⟨hdeclines _ _ _ hclose, rfl, rfl⟩)
    exact between_eq_ok.2 ⟨_, (), _, _, rfl, hnone, hend (skip_skip hc)⟩
  · obtain ⟨i, hi, hm⟩ := hm.split hc
    have hilen := (hi.bounds hc).2
    have hcomma := comma_accepts hitem hne
    have hstart : ∀ ts b, (∃ a us, Token.mark "," a :: us = ts ∧ R us b) →
        ∃ t rest, ts = t :: rest ∧ ∀ i k, s.TokenAt (s.skip i) t.kind k → F s i := by
      rintro _ b ⟨a, us, rfl, -⟩
      exact ⟨_, us, rfl, fun i k => hnext s i "," k (.inl rfl)⟩
    have hfinal : F s m := hnext s m ")" j (.inr rfl) hclose
    have hfirst : F s i := follow_of_repeated hstart hrest hilen hm hfinal
    have hitem' := hitem (c := ⟨_, c.depth⟩) (skip_le hc) hn (hi.at hc (hne vs a hr)) hr hfirst
    have hchain := Chain.of_repeated (c := ⟨i, c.depth⟩) hcomma hstart hrest hilen hn hm hfinal
    have hstop : (Grammar.comma *> item).Declines s ⟨m, c.depth⟩ := by
      have hdec : (literal ",").Declines s ⟨s.skip m, c.depth⟩ :=
        Grammar.literal_declines_at hclose (by decide) (by decide)
      exact (hdec.spaced.seqRight trivia).seqRight item
    have hmany := hchain.many_eq hlen hstop
    have hsep := sepBy_eq_ok.2 (.inr ⟨_, a, rest, hitem', hmany, rfl⟩)
    exact between_eq_ok.2 ⟨_, (), _, _, rfl, hsep, hend rfl⟩

end Parser

end BrookSyntax
