import BrookSyntax.Grammar.Statement

namespace BrookSyntax

/-- The end of the trivia that starts at an offset. -/
def Source.skip (s : Source) (i : Nat) : Nat := s.triviaEnd (s.length - i) false i

/-- Where a success ends. -/
def Result.stop? {α : Type} : Result α → Option Cursor
  | .ok d _ => some d
  | .failed _ => none

theorem Result.ok_of_stop {α : Type} {r : Result α} {d : Cursor} (h : r.stop? = some d) :
    ∃ a, r = .ok d a := by
  cases r with
  | ok e a =>
    cases h
    exact ⟨a, rfl⟩
  | failed f => cases h

namespace Parser

variable {α β γ : Type} {s : Source} {c d : Cursor} {a : α} {b : β}

theorem pure_eq_ok {a' : α} : (pure a' : Parser α) s c = .ok d a ↔ c = d ∧ a' = a := by
  rw [pure_apply, Result.ok.injEq]

theorem bind_eq_ok {p : Parser α} {f : α → Parser β} :
    (p >>= f) s c = .ok d b ↔ ∃ e a, p s c = .ok e a ∧ f a s e = .ok d b := by
  rw [bind_apply]
  constructor
  · intro h
    split at h
    · next e a hp => exact ⟨e, a, hp, h⟩
    · cases h
  · rintro ⟨e, a, hp, h⟩
    rw [hp]
    exact h

theorem map_eq_ok {p : Parser α} {f : α → β} :
    (f <$> p) s c = .ok d b ↔ ∃ a, p s c = .ok d a ∧ f a = b := by
  rw [map_apply]
  constructor
  · intro h
    split at h
    · next e a hp =>
      cases h
      exact ⟨a, hp, rfl⟩
    · cases h
  · rintro ⟨a, hp, rfl⟩
    rw [hp]

theorem seqRight_eq_ok {p : Parser α} {q : Parser β} :
    (p *> q) s c = .ok d b ↔ ∃ e a, p s c = .ok e a ∧ q s e = .ok d b := by
  rw [seqRight_apply]
  constructor
  · intro h
    split at h
    · next e a hp => exact ⟨e, a, hp, h⟩
    · cases h
  · rintro ⟨e, a, hp, h⟩
    rw [hp]
    exact h

theorem seqLeft_eq_ok {p : Parser α} {q : Parser β} :
    (p <* q) s c = .ok d a ↔ ∃ e b, p s c = .ok e a ∧ q s e = .ok d b := by
  rw [seqLeft_apply]
  constructor
  · intro h
    split at h
    · next e a' hp =>
      split at h
      · next d' b hq =>
        cases h
        exact ⟨e, b, hp, hq⟩
      · cases h
    · cases h
  · rintro ⟨e, b, hp, hq⟩
    simp only [hp, hq]

theorem spaced_apply (p : Parser α) (s : Source) (c : Cursor) :
    spaced p s c = p s ⟨s.skip c.offset, c.depth⟩ := rfl

theorem trivia_eq_ok {u : Unit} :
    trivia s c = .ok d u ↔ ⟨s.skip c.offset, c.depth⟩ = d := by
  rw [trivia, Result.ok.injEq, Source.skip, and_iff_left rfl]

theorem between_eq_ok {p : Parser α} {q : Parser β} {r : Parser γ} :
    between p q r s c = .ok d b ↔
      ∃ e a f g, p s c = .ok e a ∧ q s e = .ok f b ∧ r s f = .ok d g := by
  rw [between, seqLeft_eq_ok]
  simp only [seqRight_eq_ok]
  constructor
  · rintro ⟨f, g, ⟨e, a, hp, hq⟩, hr⟩
    exact ⟨e, a, f, g, hp, hq, hr⟩
  · rintro ⟨e, a, f, g, hp, hq, hr⟩
    exact ⟨f, g, ⟨e, a, hp, hq⟩, hr⟩

theorem mapSpan_eq_ok {p : Parser α} {f : α → Span → β} :
    mapSpan p f s c = .ok d b ↔ ∃ a, p s c = .ok d a ∧ f a (c.spanTo d s) = b := by
  rw [mapSpan]
  constructor
  · intro h
    split at h
    · next e a hp =>
      cases h
      exact ⟨a, hp, rfl⟩
    · cases h
  · rintro ⟨a, hp, rfl⟩
    rw [hp]

theorem consumed_eq_ok {p : Parser α} {t : Text} :
    consumed p s c = .ok d t ↔ ∃ a, p s c = .ok d a ∧ c.sliceTo d s = t := by
  rw [consumed]
  constructor
  · intro h
    split at h
    · next e a hp =>
      cases h
      exact ⟨a, hp, rfl⟩
    · cases h
  · rintro ⟨a, hp, rfl⟩
    rw [hp]

theorem labelled_eq_ok {label : Text} {p : Parser α} :
    labelled label p s c = .ok d a ↔ p s c = .ok d a := by
  rw [labelled]
  cases p s c with
  | ok e a => rfl
  | failed f => simp only [reduceCtorEq]

theorem committed_eq_ok {p : Parser α} : committed p s c = .ok d a ↔ p s c = .ok d a := by
  rw [committed]
  cases p s c with
  | ok e a => rfl
  | failed f => simp only [reduceCtorEq]

theorem describedAs_eq_ok {description : Text} {p : Parser α} :
    describedAs description p s c = .ok d a ↔ p s c = .ok d a := by
  rw [describedAs]
  cases p s c with
  | ok e a => rfl
  | failed f =>
    dsimp only
    split <;> simp only [reduceCtorEq]

theorem deeper_eq_ok {p : Parser α} :
    deeper p s c = .ok d a ↔
      c.depth < maxDepth ∧
        ∃ e, p s ⟨c.offset, c.depth + 1⟩ = .ok e a ∧ ⟨e.offset, c.depth⟩ = d := by
  rw [deeper]
  constructor
  · intro h
    split at h
    · cases h
    · next hd =>
      split at h
      · next e a' hp =>
        cases h
        exact ⟨Int.not_le.1 hd, e, hp, rfl⟩
      · cases h
  · rintro ⟨hd, e, hp, rfl⟩
    rw [if_neg (Int.not_le.2 hd), hp]

/-- The parser fails and leaves room for other attempts. -/
def Declines (p : Parser α) (s : Source) (c : Cursor) : Prop :=
  ∃ f, p s c = .failed f ∧ f.committed = false

theorem attempts_cons (p : Parser α) (ps : List (Parser α)) (s : Source) (c : Cursor) :
    attempts s c (p :: ps) =
      match p s c with
      | .ok d a => .inl (.ok d a)
      | .failed f =>
        if f.committed then .inl (.failed f)
        else
          match attempts s c ps with
          | .inl result => .inl result
          | .inr failures => .inr (f :: failures) := rfl

theorem choice_nil_ne_ok : choice ([] : List (Parser α)) s c ≠ .ok d a := by
  intro h
  cases h

theorem choice_cons_eq_ok {p : Parser α} {ps : List (Parser α)} :
    choice (p :: ps) s c = .ok d a ↔
      p s c = .ok d a ∨ p.Declines s c ∧ choice ps s c = .ok d a := by
  rw [choice, choice, attempts_cons, Declines]
  cases p s c with
  | ok e a' => simp only [reduceCtorEq, false_and, exists_false, or_false]
  | failed f =>
    cases hf : f.committed with
    | true => simp [hf]
    | false =>
      cases attempts s c ps with
      | inl result => simp [hf]
      | inr failures => simp [hf]

theorem optional_eq_ok {p : Parser α} {o : Option α} :
    optional p s c = .ok d o ↔
      (∃ a, p s c = .ok d a ∧ some a = o) ∨ p.Declines s c ∧ c = d ∧ none = o := by
  rw [optional, Declines]
  cases p s c with
  | ok e a' =>
    simp only [Result.ok.injEq, reduceCtorEq, false_and, exists_false, or_false]
    constructor
    · rintro ⟨rfl, rfl⟩
      exact ⟨a', ⟨rfl, rfl⟩, rfl⟩
    · rintro ⟨a, ⟨rfl, rfl⟩, rfl⟩
      exact ⟨rfl, rfl⟩
  | failed f =>
    cases hf : f.committed with
    | true => simp [hf]
    | false => simp [hf]

theorem attempt_eq_ok_none {p : Parser α} :
    attempt p s c = .ok d none ↔ (∃ f, p s c = .failed f) ∧ c = d := by
  rw [attempt]
  cases p s c with
  | ok e a => simp
  | failed f => simp

theorem attempt_eq_ok_some {p : Parser α} :
    attempt p s c = .ok d (some a) ↔ p s c = .ok d a := by
  rw [attempt]
  cases p s c with
  | ok e a => simp
  | failed f => simp

/-- Runs of a parser one after the other, each of which reads something. -/
inductive Chain (p : Parser α) (s : Source) : Cursor → List α → Cursor → Prop where
  | nil (c : Cursor) : Chain p s c [] c
  | cons {c d e : Cursor} {a : α} {as : List α} (h : p s c = .ok d a)
      (hlt : c.offset < d.offset) (hc : Chain p s d as e) : Chain p s c (a :: as) e

theorem Chain.offset_le {p : Parser α} {as : List α} (hc : Chain p s c as d) :
    c.offset + as.length ≤ d.offset := by
  induction hc with
  | nil c => simp
  | cons hp hlt hc ih =>
    simp only [List.length_cons]
    omega

/-- A parser that never goes back. -/
def Advances (p : Parser α) : Prop :=
  ∀ ⦃s : Source⦄ ⦃c d : Cursor⦄ ⦃a : α⦄, c.offset ≤ s.length → p s c = .ok d a →
    c.offset ≤ d.offset ∧ d.offset ≤ s.length

theorem Chain.of_manyWithin {p : Parser α} {n : Nat} {as : List α} (hp : p.Advances)
    (hc : c.offset ≤ s.length) (h : manyWithin p n s c = .ok d as) : Chain p s c as d := by
  induction n generalizing c as with
  | zero =>
    obtain ⟨rfl, rfl⟩ := pure_eq_ok.1 h
    exact .nil c
  | succ n ih =>
    dsimp only [manyWithin] at h
    split at h
    · next f hf =>
      split at h
      · cases h
      · cases h
        exact .nil _
    · next e a ha =>
      obtain ⟨hle, hlen⟩ := hp hc ha
      split at h
      · cases h
        exact .nil _
      · next hne =>
        split at h
        · next e' as' hm =>
          cases h
          exact .cons ha (by omega) (ih hlen hm)
        · cases h

theorem Chain.of_many {p : Parser α} {as : List α} (hp : p.Advances) (hc : c.offset ≤ s.length)
    (h : many p s c = .ok d as) : Chain p s c as d := .of_manyWithin hp hc h

/-- A chain at whose end the parser declines is what a repetition reads, given fuel for it. -/
theorem Chain.manyWithin_eq {p : Parser α} {as : List α} (hc : Chain p s c as d)
    (hd : p.Declines s d) {n : Nat} (hn : as.length < n) :
    manyWithin p n s c = .ok d as := by
  induction hc generalizing n with
  | nil c =>
    obtain ⟨f, hf, hcom⟩ := hd
    cases n with
    | zero => cases hn
    | succ n => simp only [manyWithin, hf, hcom, Bool.false_eq_true, ↓reduceIte]
  | cons hp hlt hc ih =>
    cases n with
    | zero => cases hn
    | succ n =>
      have hm := ih hd (n := n) (by simpa using hn)
      simp only [manyWithin, hp, Nat.ne_of_gt hlt, ↓reduceIte, hm]

theorem Chain.many_eq {p : Parser α} {as : List α} (hc : Chain p s c as d)
    (hlen : d.offset ≤ s.length) (hd : p.Declines s d) : many p s c = .ok d as := by
  have hle := hc.offset_le
  exact hc.manyWithin_eq hd (by omega)

/-- No items where the first one declines, else one item and those that follow a separator. -/
theorem sepBy_eq_ok {item : Parser α} {separator : Parser β} {as : List α} :
    sepBy item separator s c = .ok d as ↔
      (item.Declines s c ∧ c = d ∧ [] = as) ∨
        ∃ e a rest, item s c = .ok e a ∧ many (separator *> item) s e = .ok d rest ∧
          a :: rest = as := by
  rw [sepBy, Declines]
  cases item s c with
  | ok e a =>
    simp only [reduceCtorEq, false_and, exists_false, false_or, Result.ok.injEq]
    constructor
    · intro h
      split at h
      · next e' rest hm =>
        cases h
        exact ⟨e, a, rest, ⟨rfl, rfl⟩, hm, rfl⟩
      · cases h
    · rintro ⟨e', a', rest, ⟨rfl, rfl⟩, hm, rfl⟩
      rw [hm]
  | failed f =>
    cases hf : f.committed with
    | true => simp [hf]
    | false => simp [hf]

theorem Declines.bind {p : Parser α} (h : p.Declines s c) (f : α → Parser β) :
    (p >>= f).Declines s c := by
  obtain ⟨e, he, hcom⟩ := h
  exact ⟨e, by rw [bind_apply, he], hcom⟩

theorem Declines.bind_right {p : Parser α} {f : α → Parser β} (hp : p s c = .ok d a)
    (h : (f a).Declines s d) : (p >>= f).Declines s c := by
  obtain ⟨e, he, hcom⟩ := h
  exact ⟨e, by rw [bind_apply, hp]; exact he, hcom⟩

theorem Declines.map {p : Parser α} (h : p.Declines s c) (f : α → β) :
    (f <$> p).Declines s c := by
  obtain ⟨e, he, hcom⟩ := h
  exact ⟨e, by rw [map_apply, he], hcom⟩

theorem Declines.seqRight {p : Parser α} (h : p.Declines s c) (q : Parser β) :
    (p *> q).Declines s c := by
  obtain ⟨e, he, hcom⟩ := h
  exact ⟨e, by rw [seqRight_apply, he], hcom⟩

theorem Declines.spaced {p : Parser α} (h : p.Declines s ⟨s.skip c.offset, c.depth⟩) :
    (spaced p).Declines s c := h

theorem Declines.mapSpan {p : Parser α} (h : p.Declines s c) (f : α → Span → β) :
    (mapSpan p f).Declines s c := by
  obtain ⟨e, he, hcom⟩ := h
  exact ⟨e, by rw [Parser.mapSpan, he], hcom⟩

theorem Declines.labelled {p : Parser α} (h : p.Declines s c) (label : Text) :
    (labelled label p).Declines s c := by
  obtain ⟨e, he, hcom⟩ := h
  exact ⟨e.within label c.offset, by rw [Parser.labelled, he], hcom⟩

theorem Declines.describedAs {p : Parser α} (h : p.Declines s c) (description : Text) :
    (describedAs description p).Declines s c := by
  obtain ⟨e, he, hcom⟩ := h
  by_cases hlt : c.offset < e.offset
  · exact ⟨e, by simp only [Parser.describedAs, he, hlt, decide_true, Bool.or_true, ↓reduceIte],
      hcom⟩
  · refine ⟨{ cause := .token description, offset := c.offset }, ?_, rfl⟩
    simp only [Parser.describedAs, he, hcom, hlt, decide_false, Bool.or_self, Bool.false_eq_true,
      ↓reduceIte]

theorem attempts_of_declines {ps : List (Parser α)} (h : ∀ p ∈ ps, p.Declines s c) :
    ∃ failures : List Failure, attempts s c ps = .inr failures ∧
      ∀ f ∈ failures, f.committed = false := by
  induction ps with
  | nil => exact ⟨[], rfl, by simp⟩
  | cons p ps ih =>
    obtain ⟨f, hf, hcom⟩ := h p List.mem_cons_self
    obtain ⟨failures, hfs, hall⟩ := ih fun q hq => h q (List.mem_cons_of_mem _ hq)
    refine ⟨f :: failures, by simp only [attempts_cons, hf, hcom, hfs, Bool.false_eq_true,
      ↓reduceIte], ?_⟩
    intro g hg
    rcases List.mem_cons.1 hg with rfl | hg
    · exact hcom
    · exact hall g hg

theorem farthest_mem (best : Failure) (failures : List Failure) :
    Failure.farthest best failures ∈ best :: failures := by
  induction failures generalizing best with
  | nil => exact List.mem_singleton_self _
  | cons f rest ih =>
    rw [Failure.farthest]
    rcases List.mem_cons.1 (ih (if best.offset < f.offset then f else best)) with h | h
    · rw [h]
      split <;> simp
    · exact List.mem_cons_of_mem _ (List.mem_cons_of_mem _ h)

theorem merge_committed {offset : Nat} {failures : List Failure}
    (h : ∀ f ∈ failures, f.committed = false) :
    (Failure.merge offset failures).committed = false := by
  cases failures with
  | nil => rfl
  | cons f rest =>
    rw [Failure.merge]
    split
    · exact h _ (farthest_mem f rest)
    · rfl

theorem Declines.choice {ps : List (Parser α)} (h : ∀ p ∈ ps, p.Declines s c) :
    (choice ps).Declines s c := by
  obtain ⟨failures, hfs, hall⟩ := attempts_of_declines h
  exact ⟨Failure.merge c.offset failures, by rw [Parser.choice, hfs], merge_committed hall⟩

end Parser

end BrookSyntax
