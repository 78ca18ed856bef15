import BrookSyntax.Proofs.Failing
import BrookSyntax.Proofs.RuleBounds

namespace BrookSyntax

/-- The result with one value more in front. -/
def Result.prepend {α : Type} (a : α) : Result (List α) → Result (List α)
  | .ok d as => .ok d (a :: as)
  | .failed f => .failed f

namespace Parser

variable {α β : Type} {p : Parser α} {s : Source} {c d : Cursor}

/-- The repetition without any bound: after so many runs of the parser it has the result. -/
inductive Repeats (p : Parser α) (s : Source) : Cursor → Nat → Result (List α) → Prop where
  | declines {c : Cursor} {f : Failure} (h : p s c = .failed f) (hf : f.committed = false) :
      Repeats p s c 1 (.ok c [])
  | aborts {c : Cursor} {f : Failure} (h : p s c = .failed f) (hf : f.committed = true) :
      Repeats p s c 1 (.failed f)
  | stands {c d : Cursor} {a : α} (h : p s c = .ok d a) (hd : d.offset = c.offset) :
      Repeats p s c 1 (.ok c [])
  | goesOn {c d : Cursor} {a : α} {n : Nat} {r : Result (List α)} (h : p s c = .ok d a)
      (hd : d.offset ≠ c.offset) (hr : Repeats p s d n r) : Repeats p s c (n + 1) (r.prepend a)

/-- The parser fails uncommitted here, or succeeds without moving. -/
def Rests (p : Parser α) (s : Source) (c : Cursor) : Prop :=
  p.Declines s c ∨ ∃ d a, p s c = .ok d a ∧ d.offset = c.offset

theorem Repeats.of_failed {n : Nat} {r : Result (List α)} {f : Failure} (h : Repeats p s c n r)
    (hf : p s c = .failed f) :
    n = 1 ∧ r = if f.committed then .failed f else .ok c [] := by
  cases h with
  | declines h hopen =>
    cases hf.symm.trans h
    rw [hopen]
    exact ⟨rfl, rfl⟩
  | aborts h hcommitted =>
    cases hf.symm.trans h
    rw [hcommitted]
    exact ⟨rfl, rfl⟩
  | stands h hd => cases hf.symm.trans h
  | goesOn h hd hr => cases hf.symm.trans h

theorem Repeats.of_ok {n : Nat} {r : Result (List α)} {a : α} (h : Repeats p s c n r)
    (hok : p s c = .ok d a) :
    d.offset = c.offset ∧ n = 1 ∧ r = .ok c [] ∨
      d.offset ≠ c.offset ∧ ∃ m r', Repeats p s d m r' ∧ n = m + 1 ∧ r = r'.prepend a := by
  cases h with
  | declines h hopen => cases hok.symm.trans h
  | aborts h hcommitted => cases hok.symm.trans h
  | stands h hd =>
    cases hok.symm.trans h
    exact .inl ⟨hd, rfl, rfl⟩
  | goesOn h hd hr =>
    cases hok.symm.trans h
    exact .inr ⟨hd, _, _, hr, rfl, rfl⟩

theorem Repeats.unique {n m : Nat} {r r' : Result (List α)} (h : Repeats p s c n r)
    (h' : Repeats p s c m r') : n = m ∧ r = r' := by
  induction h generalizing m r' with
  | declines h hopen =>
    obtain ⟨rfl, rfl⟩ := h'.of_failed h
    rw [hopen]
    exact ⟨rfl, rfl⟩
  | aborts h hcommitted =>
    obtain ⟨rfl, rfl⟩ := h'.of_failed h
    rw [hcommitted]
    exact ⟨rfl, rfl⟩
  | stands h hd =>
    obtain ⟨-, rfl, rfl⟩ | ⟨hne, -⟩ := h'.of_ok h
    · exact ⟨rfl, rfl⟩
    · exact absurd hd hne
  | goesOn h hd hr ih =>
    obtain ⟨heq, -⟩ | ⟨-, k, r'', hr', rfl, rfl⟩ := h'.of_ok h
    · exact absurd heq hd
    · obtain ⟨rfl, rfl⟩ := ih hr'
      exact ⟨rfl, rfl⟩

/-- The bounded repetition is the one without a bound, if it may run the parser more often than
there are units left. -/
theorem repeats_manyWithin (hp : p.Advances) (hc : c.offset ≤ s.length) {k : Nat}
    (hk : s.length - c.offset < k) :
    ∃ n ≤ s.length - c.offset + 1, Repeats p s c n (manyWithin p k s c) := by
  induction k generalizing c with
  | zero => exact absurd hk (Nat.not_lt_zero _)
  | succ k ih =>
    dsimp only [manyWithin]
    split
    · next f h =>
      split
      · next hf => exact ⟨1, Nat.le_add_left _ _, .aborts h hf⟩
      · next hf => exact ⟨1, Nat.le_add_left _ _, .declines h (Bool.eq_false_iff.2 hf)⟩
    · next d a h =>
      split
      · next hd => exact ⟨1, Nat.le_add_left _ _, .stands h hd⟩
      · next hd =>
        obtain ⟨hle, hlen⟩ := hp hc h
        obtain ⟨n, hn, hr⟩ := ih hlen (by omega)
        refine ⟨n + 1, by omega, ?_⟩
        cases hm : manyWithin p k s d <;> exact .goesOn h hd (hm ▸ hr)

theorem repeats_many (hp : p.Advances) (hc : c.offset ≤ s.length) :
    ∃ n ≤ s.length - c.offset + 1, Repeats p s c n (many p s c) :=
  repeats_manyWithin hp hc (Nat.lt_succ_self _)

/-- A repetition runs the parser once for each value and once more, where it rests or fails for
good. -/
theorem Repeats.exists_chain {n : Nat} {r : Result (List α)} (h : Repeats p s c n r)
    (hp : p.Advances) (hc : c.offset ≤ s.length) :
    ∃ as d, Chain p s c as d ∧ n = as.length + 1 ∧
      (p.Rests s d ∧ r = .ok d as ∨
        ∃ f, p s d = .failed f ∧ f.committed = true ∧ r = .failed f) := by
  induction h with
  | declines h hf => exact ⟨[], _, .nil _, rfl, .inl ⟨.inl ⟨_, h, hf⟩, rfl⟩⟩
  | aborts h hf => exact ⟨[], _, .nil _, rfl, .inr ⟨_, h, hf, rfl⟩⟩
  | stands h hd => exact ⟨[], _, .nil _, rfl, .inl ⟨.inr ⟨_, _, h, hd⟩, rfl⟩⟩
  | goesOn h hd hr ih =>
    obtain ⟨hle, hlen⟩ := hp hc h
    obtain ⟨as, e, hchain, rfl, hend⟩ := ih hlen
    refine ⟨_ :: as, e, .cons h (by omega) hchain, rfl, ?_⟩
    rcases hend with ⟨hrests, rfl⟩ | ⟨f, hfail, hf, rfl⟩
    · exact .inl ⟨hrests, rfl⟩
    · exact .inr ⟨f, hfail, hf, rfl⟩

theorem Chain.repeats {as : List α} {n : Nat} {r : Result (List α)} (h : Chain p s c as d)
    (hr : Repeats p s d n r) : Repeats p s c (n + as.length) (as.foldr Result.prepend r) := by
  induction h with
  | nil c => exact hr
  | cons h hlt hchain ih => exact .goesOn h (Nat.ne_of_gt hlt) (ih hr)

theorem foldr_prepend_ok (as : List α) (d : Cursor) :
    as.foldr Result.prepend (.ok d []) = .ok d as := by
  induction as with
  | nil => rfl
  | cons a as ih => rw [List.foldr_cons, ih, Result.prepend]

theorem foldr_prepend_failed (as : List α) (f : Failure) :
    as.foldr Result.prepend (.failed f) = .failed f := by
  induction as with
  | nil => rfl
  | cons a as ih => rw [List.foldr_cons, ih, Result.prepend]

theorem Rests.repeats (h : p.Rests s c) : Repeats p s c 1 (.ok c []) := by
  rcases h with ⟨f, hfail, hf⟩ | ⟨d, a, hok, hd⟩
  · exact .declines hfail hf
  · exact .stands hok hd

/-- The repetition of a parser follows the chain of its runs. -/
structure ReadsChain (p : Parser α) (s : Source) (c : Cursor) : Prop where
  /-- It ends, with one result only, after at most one run more than there are units left. -/
  runs : ∃ n ≤ s.length - c.offset + 1, ∀ m r, Repeats p s c m r ↔ m = n ∧ r = many p s c
  ok_iff : ∀ d as, many p s c = .ok d as ↔ Chain p s c as d ∧ p.Rests s d
  failed_iff : ∀ f, many p s c = .failed f ↔
    ∃ as d, Chain p s c as d ∧ p s d = .failed f ∧ f.committed = true

theorem readsChain (hp : p.Advances) (hc : c.offset ≤ s.length) : p.ReadsChain s c := by
  obtain ⟨n, hn, hmany⟩ := repeats_many hp hc
  have hall (m : Nat) (r : Result (List α)) : Repeats p s c m r ↔ m = n ∧ r = many p s c := by
    constructor
    · intro h
      obtain ⟨rfl, rfl⟩ := h.unique hmany
      exact ⟨rfl, rfl⟩
    · rintro ⟨rfl, rfl⟩
      exact hmany
  obtain ⟨as, d, hchain, -, hend⟩ := hmany.exists_chain hp hc
  refine ⟨⟨n, hn, hall⟩, fun e bs => ⟨fun h => ?_, fun ⟨h, hrests⟩ => ?_⟩,
    fun f => ⟨fun h => ?_, fun ⟨bs, e, h, hfail, hf⟩ => ?_⟩⟩
  · rw [h] at hend
    rcases hend with ⟨hrests, heq⟩ | ⟨f, -, -, heq⟩
    · cases heq
      exact ⟨hchain, hrests⟩
    · cases heq
  · have hr := ((hall _ _).1 (h.repeats hrests.repeats)).2
    rw [← hr, foldr_prepend_ok]
  · rw [h] at hend
    rcases hend with ⟨-, heq⟩ | ⟨g, hfail, hf, heq⟩
    · cases heq
    · cases heq
      exact ⟨as, d, hchain, hfail, hf⟩
  · have hr := ((hall _ _).1 (h.repeats (.aborts hfail hf))).2
    rw [← hr, foldr_prepend_failed]

theorem Advances.seqRight {q : Parser β} (hp : p.Advances) (hq : q.Advances) :
    (p *> q).Advances := by
  intro s c e b hc h
  obtain ⟨d, a, hok, hq'⟩ := seqRight_eq_ok.1 h
  obtain ⟨hle, hlen⟩ := hp hc hok
  obtain ⟨hle', hlen'⟩ := hq hlen hq'
  exact ⟨Nat.le_trans hle hle', hlen'⟩

/-- The values of a chain of separators with items end in that of the item before its end. -/
theorem Chain.last {separator : Parser β} {as : List α} {a : α}
    (h : Chain (separator *> p) s c as d) (ha : as.getLast? = some a) :
    ∃ m, p s m = .ok d a := by
  induction h with
  | nil c => cases ha
  | @cons c d e b bs h hlt hchain ih =>
    cases bs with
    | nil =>
      cases ha
      cases hchain
      obtain ⟨m, x, -, hok⟩ := seqRight_eq_ok.1 h
      exact ⟨m, hok⟩
    | cons b' bs => exact ih (by rwa [List.getLast?_cons_cons] at ha)

/-- A list of items follows the chain of its separators and items. -/
structure ReadsList (item : Parser α) (separator : Parser β) (s : Source) (c : Cursor) : Prop where
  /-- Behind the first item it is a repetition of separators with items. -/
  rest : ∀ d a, item s c = .ok d a → (separator *> item).ReadsChain s d ∧
    sepBy item separator s c = (many (separator *> item) s d).prepend a
  ok_iff : ∀ d as, sepBy item separator s c = .ok d as ↔
    item.Declines s c ∧ d = c ∧ as = [] ∨
      ∃ e a rest, item s c = .ok e a ∧ Chain (separator *> item) s e rest d ∧
        (separator *> item).Rests s d ∧ as = a :: rest
  /-- It ends just behind its last item. -/
  last : ∀ d as a, sepBy item separator s c = .ok d as → as.getLast? = some a →
    ∃ m, item s m = .ok d a
  failed_iff : ∀ f, sepBy item separator s c = .failed f ↔ f.committed = true ∧
    (item s c = .failed f ∨
      ∃ e a rest d, item s c = .ok e a ∧ Chain (separator *> item) s e rest d ∧
        (separator s d = .failed f ∨ ∃ m b, separator s d = .ok m b ∧ item s m = .failed f))

theorem sepBy_eq_prepend {separator : Parser β} {a : α} (h : p s c = .ok d a) :
    sepBy p separator s c = (many (separator *> p) s d).prepend a := by
  simp only [sepBy, h]
  cases many (separator *> p) s d <;> rfl

theorem readsList {item : Parser α} {separator : Parser β} (hi : item.Advances)
    (hs : separator.Advances) (hc : c.offset ≤ s.length) : ReadsList item separator s c := by
  have hrest {e : Cursor} {a : α} (h : item s c = .ok e a) : (separator *> item).ReadsChain s e :=
    readsChain (hs.seqRight hi) (hi hc h).2
  have hok_iff (d : Cursor) (as : List α) : sepBy item separator s c = .ok d as ↔
      item.Declines s c ∧ d = c ∧ as = [] ∨
        ∃ e a rest, item s c = .ok e a ∧ Chain (separator *> item) s e rest d ∧
          (separator *> item).Rests s d ∧ as = a :: rest := by
    rw [sepBy_eq_ok]
    refine or_congr (and_congr_right fun _ => and_congr eq_comm eq_comm) ?_
    constructor
    · rintro ⟨e, a, rest, h, hm, rfl⟩
      obtain ⟨hchain, hrests⟩ := ((hrest h).ok_iff d rest).1 hm
      exact ⟨e, a, rest, h, hchain, hrests, rfl⟩
    · rintro ⟨e, a, rest, h, hchain, hrests, rfl⟩
      exact ⟨e, a, rest, h, ((hrest h).ok_iff d rest).2 ⟨hchain, hrests⟩, rfl⟩
  refine ⟨fun d a h => ⟨hrest h, sepBy_eq_prepend h⟩, hok_iff, fun d as a h ha => ?_, fun f => ?_⟩
  · rcases (hok_iff d as).1 h with ⟨-, -, rfl⟩ | ⟨e, b, rest, hfirst, hchain, -, rfl⟩
    · cases ha
    · cases rest with
      | nil =>
        cases ha
        cases hchain
        exact ⟨c, hfirst⟩
      | cons b' rest => exact hchain.last (by rwa [List.getLast?_cons_cons] at ha)
  · rw [sepBy_eq_failed]
    constructor
    · rintro (⟨hfail, hf⟩ | ⟨e, a, h, hm⟩)
      · exact ⟨hf, .inl hfail⟩
      · obtain ⟨rest, d, hchain, hfail, hf⟩ := ((hrest h).failed_iff f).1 hm
        exact ⟨hf, .inr ⟨e, a, rest, d, h, hchain, seqRight_eq_failed.1 hfail⟩⟩
    · rintro ⟨hf, hfail | ⟨e, a, rest, d, h, hchain, hfail⟩⟩
      · exact .inl ⟨hfail, hf⟩
      · exact .inr ⟨e, a, h,
          ((hrest h).failed_iff f).2 ⟨rest, d, hchain, seqRight_eq_failed.2 hfail, hf⟩⟩

/-- Repetitions and lists of parsers that never go back read the maximal chain and stop. -/
theorem repetition_maximal {separator : Parser β} (hp : p.Advances) (hs : separator.Advances)
    (hc : c.offset ≤ s.length) : p.ReadsChain s c ∧ ReadsList p separator s c :=
  ⟨readsChain hp hc, readsList hp hs hc⟩

/-- In `a, b, 1` the names end before the second comma, which no name follows. -/
theorem repetition_maximal_names :
    (⟨0, 0⟩ : Cursor).offset ≤ (Source.ofText "a, b, 1").length ∧
      sepBy Grammar.identifier Grammar.comma (.ofText "a, b, 1") ⟨0, 0⟩ = .ok ⟨4, 0⟩ ["a", "b"] ∧
      ∃ m, Grammar.identifier (.ofText "a, b, 1") m = .ok ⟨4, 0⟩ "b" := by
  have hlist := (repetition_maximal Grammar.identifier_wellBehaved.advances
    Grammar.comma_wellBehaved.advances (s := .ofText "a, b, 1") (c := ⟨0, 0⟩) (Nat.zero_le _)).2
  have hok : sepBy Grammar.identifier Grammar.comma (.ofText "a, b, 1") ⟨0, 0⟩ =
      .ok ⟨4, 0⟩ ["a", "b"] := by rfl
  exact ⟨Nat.zero_le _, hok, hlist.last _ _ _ hok rfl⟩

end Parser

end BrookSyntax
