import BrookSyntax.Proofs.Bounds
import BrookSyntax.Proofs.Operators

namespace BrookSyntax

/-- A mark that is neither the beginning of another mark nor of a comment. -/
abbrev PlainMark (m : Text) : Prop :=
  m ∈ marks ∧ (∀ m' ∈ marks, m <+: m' → m' = m) ∧ m.head? ≠ some (CodeUnit.of '/')

theorem Source.LexedAfter.extent {s : Source} {i j : Nat} {ts : List Token}
    (h : s.LexedAfter i ts j) (hts : ts ≠ []) : (Token.extent ts).stop = s.position j := by
  obtain ⟨he, -⟩ | ⟨m, -, hs⟩ := h
  · exact absurd he hts
  · rw [hs.extent]

theorem Cursor.room_congr {c d : Cursor} (h : d.depth = c.depth) : d.room = c.room := by
  rw [room, h, room]

/-- Stretches of tokens one after the other, each in a relation to a value. -/
inductive Repeated {α : Type} (R : List Token → α → Prop) : List Token → List α → Prop where
  | nil : Repeated R [] []
  | cons {ts us : List Token} {a : α} {as : List α} (h : R ts a) (hs : Repeated R us as) :
      Repeated R (ts ++ us) (a :: as)

namespace Parser

open Source

variable {α β γ : Type} {n : Nat}

/-- At every cursor with room for `n` constructs more inside one another, what the parser reads are
tokens in a relation to its value, the first of which starts at the cursor. -/
def Reads (p : Parser α) (n : Nat) (R : List Token → α → Prop) : Prop :=
  ∀ ⦃s : Source⦄ ⦃c d : Cursor⦄ ⦃a : α⦄, c.offset ≤ s.length → c.room = n → p s c = .ok d a →
    d.depth = c.depth ∧ ∃ ts, s.LexedAt c.offset ts d.offset ∧ R ts a

/-- The same, but for trivia before the first token; there need not be any token. -/
def ReadsAfter (p : Parser α) (n : Nat) (R : List Token → α → Prop) : Prop :=
  ∀ ⦃s : Source⦄ ⦃c d : Cursor⦄ ⦃a : α⦄, c.offset ≤ s.length → c.room = n → p s c = .ok d a →
    d.depth = c.depth ∧ ∃ ts, s.LexedAfter c.offset ts d.offset ∧ R ts a

section Basics

variable {p : Parser α} {R R' : List Token → α → Prop}

theorem Reads.imp (hp : p.Reads n R) (h : ∀ ts a, R ts a → R' ts a) : p.Reads n R' := by
  intro s c d a hc hn hok
  obtain ⟨hd, ts, hl, hr⟩ := hp hc hn hok
  exact ⟨hd, ts, hl, h ts a hr⟩

theorem ReadsAfter.imp (hp : p.ReadsAfter n R) (h : ∀ ts a, R ts a → R' ts a) :
    p.ReadsAfter n R' := by
  intro s c d a hc hn hok
  obtain ⟨hd, ts, hl, hr⟩ := hp hc hn hok
  exact ⟨hd, ts, hl, h ts a hr⟩

theorem Reads.after (hp : p.Reads n R) : p.ReadsAfter n R := by
  intro s c d a hc hn hok
  obtain ⟨hd, ts, hl, hr⟩ := hp hc hn hok
  exact ⟨hd, ts, hl.after_here, hr⟩

theorem Reads.spaced (hp : p.Reads n R) : (spaced p).ReadsAfter n R := by
  intro s c d a hc hn hok
  rw [spaced_apply] at hok
  obtain ⟨hd, ts, hl, hr⟩ := hp (c := ⟨_, c.depth⟩) (skip_le hc) hn hok
  exact ⟨hd, ts, hl.after hc, hr⟩

theorem Reads.labelled (hp : p.Reads n R) (label : Text) : (labelled label p).Reads n R := by
  intro s c d a hc hn hok
  exact hp hc hn (labelled_eq_ok.1 hok)

theorem ReadsAfter.committed (hp : p.ReadsAfter n R) : (committed p).ReadsAfter n R := by
  intro s c d a hc hn hok
  exact hp hc hn (committed_eq_ok.1 hok)

theorem Reads.describedAs (hp : p.Reads n R) (description : Text) :
    (describedAs description p).Reads n R := by
  intro s c d a hc hn hok
  exact hp hc hn (describedAs_eq_ok.1 hok)

theorem Reads.choice {ps : List (Parser α)} (h : ∀ p ∈ ps, p.Reads n R) :
    (choice ps).Reads n R := by
  intro s c d a hc hn hok
  induction ps with
  | nil => exact absurd hok choice_nil_ne_ok
  | cons p ps ih =>
    obtain hp | ⟨-, hps⟩ := choice_cons_eq_ok.1 hok
    · exact h p List.mem_cons_self hc hn hp
    · apply ih _ hps
      intro q hq
      exact h q (List.mem_cons_of_mem _ hq)

theorem Reads.map (hp : p.Reads n R) (f : α → β) :
    (f <$> p).Reads n fun ts b => ∃ a, R ts a ∧ f a = b := by
  intro s c d b hc hn hok
  obtain ⟨a, ha, rfl⟩ := map_eq_ok.1 hok
  obtain ⟨hd, ts, hl, hr⟩ := hp hc hn ha
  exact ⟨hd, ts, hl, a, hr, rfl⟩

theorem Reads.mapSpan (hp : p.Reads n R) (f : α → Span → β) :
    (mapSpan p f).Reads n fun ts b => ∃ a, R ts a ∧ f a (Token.extent ts) = b := by
  intro s c d b hc hn hok
  obtain ⟨a, ha, rfl⟩ := mapSpan_eq_ok.1 hok
  obtain ⟨hd, ts, hl, hr⟩ := hp hc hn ha
  exact ⟨hd, ts, hl, a, hr, by rw [hl.extent]; rfl⟩

theorem ReadsAfter.pure (a : α) :
    (pure a : Parser α).ReadsAfter n fun ts b => ts = [] ∧ a = b := by
  intro s c d b hc hn hok
  obtain ⟨rfl, rfl⟩ := pure_eq_ok.1 hok
  exact ⟨rfl, [], .inl ⟨rfl, rfl⟩, rfl, rfl⟩

theorem ReadsAfter.optional (hp : p.ReadsAfter n R) :
    (optional p).ReadsAfter n fun ts o =>
      (∃ a, R ts a ∧ some a = o) ∨ ts = [] ∧ none = o := by
  intro s c d o hc hn hok
  obtain ⟨a, ha, rfl⟩ | ⟨-, rfl, rfl⟩ := optional_eq_ok.1 hok
  · obtain ⟨hd, ts, hl, hr⟩ := hp hc hn ha
    exact ⟨hd, ts, hl, .inl ⟨a, hr, rfl⟩⟩
  · exact ⟨rfl, [], .inl ⟨rfl, rfl⟩, .inr ⟨rfl, rfl⟩⟩

end Basics

section Sequences

variable {p : Parser α} {R : List Token → α → Prop}

theorem Reads.bind {f : α → Parser β} {S : α → List Token → β → Prop} (hp : p.Reads n R)
    (hf : ∀ a, (f a).ReadsAfter n (S a)) :
    (p >>= f).Reads n fun ts b => ∃ us vs a, us ++ vs = ts ∧ R us a ∧ S a vs b := by
  intro s c d b hc hn hok
  obtain ⟨e, a, ha, hb⟩ := bind_eq_ok.1 hok
  obtain ⟨he, us, hl, hr⟩ := hp hc hn ha
  obtain ⟨hd, vs, hl', hr'⟩ := hf a (hl.bounds hc).2 ((Cursor.room_congr he).trans hn) hb
  exact ⟨hd.trans he, us ++ vs, hl.append_after hl', us, vs, a, rfl, hr, hr'⟩

theorem ReadsAfter.bind {f : α → Parser β} {S : α → List Token → β → Prop}
    (hp : p.ReadsAfter n R) (hf : ∀ a, (f a).ReadsAfter n (S a)) :
    (p >>= f).ReadsAfter n fun ts b => ∃ us vs a, us ++ vs = ts ∧ R us a ∧ S a vs b := by
  intro s c d b hc hn hok
  obtain ⟨e, a, ha, hb⟩ := bind_eq_ok.1 hok
  obtain ⟨he, us, hl, hr⟩ := hp hc hn ha
  obtain ⟨hd, vs, hl', hr'⟩ := hf a (hl.bounds hc).2 ((Cursor.room_congr he).trans hn) hb
  exact ⟨hd.trans he, us ++ vs, hl.append hl', us, vs, a, rfl, hr, hr'⟩

theorem Reads.seqRight {q : Parser β} {S : List Token → β → Prop} (hp : p.Reads n R)
    (hq : q.ReadsAfter n S) :
    (p *> q).Reads n fun ts b => ∃ us vs a, us ++ vs = ts ∧ R us a ∧ S vs b := by
  intro s c d b hc hn hok
  exact hp.bind (fun _ => hq) hc hn hok

theorem ReadsAfter.seqRight {q : Parser β} {S : List Token → β → Prop} (hp : p.ReadsAfter n R)
    (hq : q.ReadsAfter n S) :
    (p *> q).ReadsAfter n fun ts b => ∃ us vs a, us ++ vs = ts ∧ R us a ∧ S vs b := by
  intro s c d b hc hn hok
  exact hp.bind (fun _ => hq) hc hn hok

theorem ReadsAfter.seqLeft {q : Parser β} {S : List Token → β → Prop} (hp : p.ReadsAfter n R)
    (hq : q.ReadsAfter n S) :
    (p <* q).ReadsAfter n fun ts a => ∃ us vs b, us ++ vs = ts ∧ R us a ∧ S vs b := by
  intro s c d a hc hn hok
  obtain ⟨e, b, ha, hb⟩ := seqLeft_eq_ok.1 hok
  obtain ⟨he, us, hl, hr⟩ := hp hc hn ha
  obtain ⟨hd, vs, hl', hr'⟩ := hq (hl.bounds hc).2 ((Cursor.room_congr he).trans hn) hb
  exact ⟨hd.trans he, us ++ vs, hl.append hl', us, vs, b, rfl, hr, hr'⟩

theorem Reads.seqLeft {q : Parser β} {S : List Token → β → Prop} (hp : p.Reads n R)
    (hq : q.ReadsAfter n S) :
    (p <* q).Reads n fun ts a => ∃ us vs b, us ++ vs = ts ∧ R us a ∧ S vs b := by
  intro s c d a hc hn hok
  obtain ⟨e, b, ha, hb⟩ := seqLeft_eq_ok.1 hok
  obtain ⟨he, us, hl, hr⟩ := hp hc hn ha
  obtain ⟨hd, vs, hl', hr'⟩ := hq (hl.bounds hc).2 ((Cursor.room_congr he).trans hn) hb
  exact ⟨hd.trans he, us ++ vs, hl.append_after hl', us, vs, b, rfl, hr, hr'⟩

end Sequences

section Nesting

variable {p : Parser α} {s : Source} {c d : Cursor} {a : α}

/-- A construct is opened only where there is room for one, and there is room for one less
inside. -/
theorem deeper_room (h : deeper p s c = .ok d a) :
    ∃ k e, c.room = k + 1 ∧ (⟨c.offset, c.depth + 1⟩ : Cursor).room = k ∧
      p s ⟨c.offset, c.depth + 1⟩ = .ok e a ∧ ⟨e.offset, c.depth⟩ = d := by
  obtain ⟨hlt, e, hp, hd⟩ := deeper_eq_ok.1 h
  refine ⟨(⟨c.offset, c.depth + 1⟩ : Cursor).room, e, ?_, rfl, hp, hd⟩
  simp only [Cursor.room, maxDepth] at hlt ⊢
  omega

theorem Reads.deeper {R : Nat → List Token → α → Prop} (hp : ∀ k, n = k + 1 → p.Reads k (R k)) :
    (deeper p).Reads n fun ts a => ∃ k, n = k + 1 ∧ R k ts a := by
  intro s c d a hc hn hok
  obtain ⟨k, e, hk, hk', ha, rfl⟩ := deeper_room hok
  obtain ⟨-, ts, hl, hr⟩ := hp k (hn.symm.trans hk) (c := ⟨c.offset, c.depth + 1⟩) hc hk' ha
  exact ⟨rfl, ts, hl, k, hn.symm.trans hk, hr⟩

theorem ReadsAfter.deeper {R : Nat → List Token → α → Prop}
    (hp : ∀ k, n = k + 1 → p.ReadsAfter k (R k)) :
    (deeper p).ReadsAfter n fun ts a => ∃ k, n = k + 1 ∧ R k ts a := by
  intro s c d a hc hn hok
  obtain ⟨k, e, hk, hk', ha, rfl⟩ := deeper_room hok
  obtain ⟨-, ts, hl, hr⟩ := hp k (hn.symm.trans hk) (c := ⟨c.offset, c.depth + 1⟩) hc hk' ha
  exact ⟨rfl, ts, hl, k, hn.symm.trans hk, hr⟩

end Nesting

section Tokens

theorem Reads.literal {m : Text} (hm : PlainMark m) :
    (literal m).Reads n fun ts _ => ∃ a, ts = [.mark m a] := by
  intro s c d t hc hn hok
  obtain ⟨hat, rfl, -⟩ := (literal_eq_ok hc).1 hok
  exact ⟨rfl, _, .single (tokenAt_plain_mark hm.1 hat hm.2), _, rfl⟩

theorem Reads.keyword {w : Text} (hw : w ∈ keywords) :
    (keyword w).Reads n fun ts _ => ∃ a, ts = [.keyword w a] := by
  intro s c d t hc hn hok
  obtain ⟨ht, hd, -⟩ := (Grammar.keyword_eq_ok hc hw).1 hok
  exact ⟨hd, _, .single ht, _, rfl⟩

theorem Reads.identifier : Grammar.identifier.Reads n fun ts w => ∃ a, ts = [.name w a] := by
  intro s c d w hc hn hok
  obtain ⟨ht, hd⟩ := Grammar.identifier_eq_ok.1 hok
  exact ⟨hd, _, .single ht, _, rfl⟩

theorem Reads.name :
    Grammar.name.Reads n fun ts name => ∃ a, ts = [.name name.text a] ∧ name.span = a := by
  intro s c d name hc hn hok
  obtain ⟨ht, hd, hs⟩ := Grammar.name_eq_ok.1 hok
  exact ⟨hd, _, .single ht, _, rfl, hs⟩

end Tokens

section Lists

variable {p : Parser α} {R : List Token → α → Prop}

theorem Chain.lexed {s : Source} {c d : Cursor} {as : List α} (hp : p.ReadsAfter n R)
    (h : Chain p s c as d) (hc : c.offset ≤ s.length) (hn : c.room = n) :
    d.depth = c.depth ∧ ∃ ts, s.LexedAfter c.offset ts d.offset ∧ Repeated R ts as := by
  induction h with
  | nil c => exact ⟨rfl, [], .inl ⟨rfl, rfl⟩, .nil⟩
  | cons h hlt hs ih =>
    obtain ⟨hd, ts, hl, hr⟩ := hp hc hn h
    obtain ⟨he, us, hl', hr'⟩ := ih (hl.bounds hc).2 ((Cursor.room_congr hd).trans hn)
    exact ⟨he.trans hd, ts ++ us, hl.append hl', .cons hr hr'⟩

theorem ReadsAfter.many (hp : p.ReadsAfter n R) (hw : p.Advances) :
    (many p).ReadsAfter n (Repeated R) := by
  intro s c d as hc hn hok
  exact Chain.lexed hp (Chain.of_many hw hc hok) hc hn

/-- Items with commas between neighbours. -/
def Separated (R : List Token → α → Prop) (ts : List Token) (as : List α) : Prop :=
  ts = [] ∧ as = [] ∨ ∃ us vs a rest, us ++ vs = ts ∧ a :: rest = as ∧ R us a ∧
    Repeated (fun ws b => ∃ c xs, .mark "," c :: xs = ws ∧ R xs b) vs rest

theorem comma_reads (hp : p.Reads n R) :
    (Grammar.comma *> p).ReadsAfter n fun ts a => ∃ c us, .mark "," c :: us = ts ∧ R us a := by
  intro s c d a hc hn hok
  have hcomma := (Reads.literal (n := n) (m := ",") (by decide)).spaced
  obtain ⟨e, u, hu, hp'⟩ := seqRight_eq_ok.1 hok
  obtain ⟨f, t, ht, htr⟩ := seqRight_eq_ok.1 hu
  obtain ⟨hf, us, hl, b, rfl⟩ := hcomma hc hn ht
  have hlen := (hl.bounds hc).2
  rw [trivia_eq_ok] at htr
  subst htr
  have hroom := (Cursor.room_congr hf).trans hn
  obtain ⟨hd, vs, hl', hr⟩ := hp (c := ⟨_, f.depth⟩) (skip_le hlen) hroom hp'
  exact ⟨hd.trans hf, _, hl.append (hl'.after hlen), b, vs, rfl, hr⟩

theorem Reads.sepBy (hp : p.Reads n R) (hw : p.WellBehaved)
    (hcomma : Grammar.comma.WellBehaved) :
    (sepBy p Grammar.comma).ReadsAfter n (Separated R) := by
  intro s c d as hc hn hok
  obtain ⟨-, rfl, rfl⟩ | ⟨e, a, rest, ha, hm, rfl⟩ := sepBy_eq_ok.1 hok
  · exact ⟨rfl, [], .inl ⟨rfl, rfl⟩, .inl ⟨rfl, rfl⟩⟩
  · obtain ⟨he, us, hl, hr⟩ := hp hc hn ha
    have hmany := (comma_reads hp).many (hcomma.seqRight hw).advances
    obtain ⟨hd, vs, hl', hr'⟩ := hmany (hl.bounds hc).2 ((Cursor.room_congr he).trans hn) hm
    exact ⟨hd.trans he, us ++ vs, hl.after_here.append hl',
      .inr ⟨us, vs, a, rest, rfl, rfl, hr, hr'⟩⟩

theorem ReadsAfter.closed (hp : p.ReadsAfter n R) {m : Text} (hm : PlainMark m) :
    (between trivia p (Parser.spaced (Parser.literal m))).ReadsAfter n fun ts a =>
      ∃ us b, us ++ [.mark m b] = ts ∧ R us a := by
  intro s c d a hc hn hok
  obtain ⟨e, u, f, t, he, hf, ht⟩ := between_eq_ok.1 hok
  rw [trivia_eq_ok] at he
  subst he
  have hlen := skip_le hc
  obtain ⟨hfd, us, hl, hr⟩ := hp (c := ⟨_, c.depth⟩) hlen hn hf
  have hclose := (Reads.literal (n := n) hm).spaced
  obtain ⟨hd, vs, hl', b, rfl⟩ := hclose (hl.bounds hlen).2 ((Cursor.room_congr hfd).trans hn) ht
  have happ := hl.append hl'
  exact ⟨hd.trans hfd, _, happ.of_skip hc (by simp), us, b, rfl, hr⟩

end Lists

end Parser

end BrookSyntax
