import BrookSyntax.Proofs.Places
import BrookSyntax.Proofs.Success

namespace BrookSyntax

/-- A source is what another one holds from an offset on. -/
structure Source.Rest (s t : Source) (k : Nat) : Prop where
  text : t.text = s.text.drop k
  le : k ≤ s.length

/-- The place in a source that is `k` units beyond the offset of another place. -/
def Source.carry (s : Source) (k : Nat) (p : Position) : Position := s.position (p.offset + k)

/-- The stretch between the places that are `k` units beyond the ends of another one. -/
def Span.carry (s : Source) (k : Nat) (a : Span) : Span := ⟨s.carry k a.start, s.carry k a.stop⟩

/-- The cursor `k` units further on. -/
def Cursor.carry (k : Nat) (c : Cursor) : Cursor := { c with offset := c.offset + k }

/-- The failure and its frames `k` units further on. -/
def Failure.carry (k : Nat) (f : Failure) : Failure :=
  { f with
    offset := f.offset + k
    frames := f.frames.map fun frame => { frame with offset := frame.offset + k } }

/-- The result `k` units further on, with its value changed. -/
def Result.carry {α β : Type} (k : Nat) (g : α → β) : Result α → Result β
  | .ok d a => .ok (d.carry k) (g a)
  | .failed f => .failed (f.carry k)

namespace Source

namespace Rest

variable {s t : Source} {i j k : Nat} {text : Text}

theorem length (h : s.Rest t k) : s.length = t.length + k := by
  have hle := h.le
  rw [length_eq] at hle
  rw [length_eq, length_eq, h.text, List.length_drop]
  omega

theorem unit? (h : s.Rest t k) (i : Nat) : s.unit? (i + k) = t.unit? i := by
  rw [unit?_eq, unit?_eq, h.text, List.getElem?_drop, Nat.add_comm]

theorem hasAt (h : s.Rest t k) : s.hasAt (i + k) text = t.hasAt i text := by
  induction text generalizing i with
  | nil => rfl
  | cons u rest ih => rw [Source.hasAt, Source.hasAt, h.unit?, Nat.add_right_comm, ih]

theorem slice (h : s.Rest t k) : s.slice (i + k) (j + k) = t.slice i j := by
  rw [slice_eq, slice_eq, h.text, List.take_drop, List.drop_drop, Nat.add_comm i k,
    Nat.add_comm j k]

theorem runEnd (h : s.Rest t k) (test : CodeUnit → Bool) (n : Nat) :
    s.runEnd test n (i + k) = t.runEnd test n i + k := by
  induction n generalizing i with
  | zero => rfl
  | succ n ih =>
    rw [Source.runEnd, Source.runEnd, h.unit?]
    cases t.unit? i with
    | none => rfl
    | some u =>
      dsimp only
      split
      · rw [Nat.add_right_comm, ih]
      · rfl

theorem triviaEnd (h : s.Rest t k) (n : Nat) (inside : Bool) :
    s.triviaEnd n inside (i + k) = t.triviaEnd n inside i + k := by
  induction n generalizing i inside with
  | zero => cases inside <;> rfl
  | succ n ih =>
    cases inside with
    | true =>
      rw [Source.triviaEnd, Source.triviaEnd, h.unit?]
      cases t.unit? i with
      | none => rfl
      | some u =>
        dsimp only
        rw [Nat.add_right_comm, ih]
    | false =>
      rw [Source.triviaEnd, Source.triviaEnd, h.unit?, h.hasAt]
      cases t.unit? i with
      | none => rfl
      | some u =>
        dsimp only
        split
        · rw [Nat.add_right_comm, ih]
        · split
          · rw [Nat.add_right_comm, ih]
          · rfl

theorem left (h : s.Rest t k) (i : Nat) : s.length - (i + k) = t.length - i := by
  rw [h.length]
  omega

theorem skip (h : s.Rest t k) : s.skip (i + k) = t.skip i + k := by
  rw [Source.skip, Source.skip, h.left, h.triviaEnd]

theorem position (h : s.Rest t k) : s.position (i + k) = s.carry k (t.position i) := by
  rw [carry, position_offset, ← s.position_min, h.length]
  congr 1
  omega

theorem spanTo (h : s.Rest t k) (c d : Cursor) :
    (c.carry k).spanTo (d.carry k) s = (c.spanTo d t).carry s k := by
  rw [Span.carry, Cursor.spanTo, Cursor.spanTo, ← h.position, ← h.position]
  rfl

theorem advance (h : s.Rest t k) (c : Cursor) (n : Nat) :
    (c.carry k).advance s n = (c.advance t n).carry k := by
  rw [Cursor.advance, Cursor.advance, Cursor.carry, Cursor.carry, h.length]
  congr 1
  dsimp only
  omega

theorem atEnd (h : s.Rest t k) (c : Cursor) : (c.carry k).atEnd s = c.atEnd t := by
  rw [Cursor.atEnd, Cursor.atEnd, Cursor.carry, h.length, decide_eq_decide]
  exact Nat.add_le_add_iff_right

end Rest

theorem rest_ofText (t : Text) {k : Nat} (hk : k ≤ t.length) :
    (ofText t).Rest (ofText (t.drop k)) k := ⟨rfl, by rwa [length_ofText]⟩

end Source

namespace Failure

variable (k : Nat) (f : Failure) {i : Nat} {fs : List Failure}

theorem carry_committed : (f.carry k).committed = f.committed := rfl

theorem carry_within (label : Text) (i : Nat) :
    (f.within label i).carry k = (f.carry k).within label (i + k) := by
  simp only [within, carry, List.map_append, List.map_singleton]

theorem carry_farthest (best : Failure) (fs : List Failure) :
    farthest (best.carry k) (fs.map (carry k)) = (farthest best fs).carry k := by
  induction fs generalizing best with
  | nil => rfl
  | cons f rest ih =>
    have hlt : (best.carry k).offset < (f.carry k).offset ↔ best.offset < f.offset :=
      Nat.add_lt_add_iff_right
    rw [List.map_cons, farthest, farthest, ← ih]
    simp only [hlt, apply_ite (carry k)]

theorem carry_merge (i : Nat) (fs : List Failure) :
    merge (i + k) (fs.map (carry k)) = (merge i fs).carry k := by
  cases fs with
  | nil => rfl
  | cons f rest =>
    have hcauses : (rest.map (carry k)).map cause = rest.map cause := List.map_map ..
    have hlt : i + k < ((farthest f rest).carry k).offset ↔ i < (farthest f rest).offset :=
      Nat.add_lt_add_iff_right
    rw [List.map_cons, merge, merge, carry_farthest]
    simp only [hlt, List.map_eq_nil_iff, List.map_cons, hcauses, apply_ite (carry k)]
    rfl

end Failure

namespace Parser

variable {α β γ : Type}

/-- What one parser does in the shorter source from anywhere, the other one does in the longer
source from `k` units further on, with the value changed by `g`. They are one parser, but for those
that depend on a value that was read before. -/
def Carries (s t : Source) (k : Nat) (p q : Parser α) (g : α → α) : Prop :=
  ∀ c : Cursor, q s (c.carry k) = (p t c).carry k g

variable {s t : Source} {k : Nat} {p p' : Parser α} {q q' : Parser β} {g : α → α} {g' : β → β}

section Sequences

theorem Carries.pure {a b : α} (h : g a = b) :
    Carries s t k (pure a : Parser α) (pure b) g := by
  intro c
  subst h
  rfl

theorem Carries.bind {f f' : α → Parser β} (hp : Carries s t k p p' g)
    (hf : ∀ a, Carries s t k (f a) (f' (g a)) g') :
    Carries s t k (p >>= f) (p' >>= f') g' := by
  intro c
  rw [bind_apply, bind_apply, hp c]
  cases p t c with
  | ok d a => exact hf a d
  | failed f => rfl

theorem Carries.map (hp : Carries s t k p p' g) {f f' : α → β}
    (hf : ∀ a, f' (g a) = g' (f a)) : Carries s t k (f <$> p) (f' <$> p') g' :=
  hp.bind fun a => .pure (hf a).symm

theorem Carries.seqRight (hp : Carries s t k p p' g) (hq : Carries s t k q q' g') :
    Carries s t k (p *> q) (p' *> q') g' := by
  intro c
  exact hp.bind (fun _ => hq) c

theorem Carries.seqLeft (hp : Carries s t k p p' g) (hq : Carries s t k q q' g') :
    Carries s t k (p <* q) (p' <* q') g := by
  intro c
  rw [seqLeft_apply, seqLeft_apply, hp c]
  cases p t c with
  | ok d a =>
    simp only [Result.carry, hq d]
    cases q t d <;> rfl
  | failed f => rfl

theorem Carries.between {r r' : Parser γ} {g'' : γ → γ}
    (hp : Carries s t k p p' g) (hq : Carries s t k q q' g')
    (hr : Carries s t k r r' g'') : Carries s t k (between p q r) (between p' q' r') g' :=
  (hp.seqRight hq).seqLeft hr

end Sequences

section Annotations

theorem Carries.fail (cause : Cause) : Carries s t k (fail cause) (fail cause) g :=
  fun _ => rfl

theorem Carries.abort (cause : Cause) : Carries s t k (abort cause) (abort cause) g :=
  fun _ => rfl

theorem Carries.labelled (hp : Carries s t k p p' g) (label : Text) :
    Carries s t k (labelled label p) (labelled label p') g := by
  intro c
  rw [Parser.labelled, Parser.labelled, hp c]
  cases p t c with
  | ok d a => rfl
  | failed f => exact congrArg Result.failed (f.carry_within k label c.offset).symm

theorem Carries.committed (hp : Carries s t k p p' g) :
    Carries s t k (committed p) (committed p') g := by
  intro c
  rw [Parser.committed, Parser.committed, hp c]
  cases p t c <;> rfl

theorem Carries.describedAs (hp : Carries s t k p p' g) (description : Text) :
    Carries s t k (describedAs description p) (describedAs description p') g := by
  intro c
  rw [Parser.describedAs, Parser.describedAs, hp c]
  cases p t c with
  | ok d a => rfl
  | failed f =>
    have hbeyond : (c.carry k).offset < (f.carry k).offset ↔ c.offset < f.offset :=
      Nat.add_lt_add_iff_right
    simp only [Result.carry, hbeyond, f.carry_committed]
    split <;> rfl

theorem Carries.deeper (hp : Carries s t k p p' g) :
    Carries s t k (deeper p) (deeper p') g := by
  intro c
  have hin : p' s ⟨(c.carry k).offset, (c.carry k).depth + 1⟩ = _ := hp ⟨c.offset, c.depth + 1⟩
  have hdepth : (c.carry k).depth = c.depth := rfl
  rw [Parser.deeper, Parser.deeper, hin, hdepth]
  split
  · rfl
  · cases p t ⟨c.offset, c.depth + 1⟩ <;> rfl

theorem Carries.optional (hp : Carries s t k p p' g) :
    Carries s t k (optional p) (optional p') (Option.map g) := by
  intro c
  rw [Parser.optional, Parser.optional, hp c]
  cases p t c with
  | ok d a => rfl
  | failed f =>
    simp only [Result.carry, f.carry_committed]
    split <;> rfl

theorem Carries.attempt (hp : Carries s t k p p' g) :
    Carries s t k (attempt p) (attempt p') (Option.map g) := by
  intro c
  rw [Parser.attempt, Parser.attempt, hp c]
  cases p t c <;> rfl

end Annotations

section Choices

theorem attempts_carry {ps : List (Parser α)} (h : ∀ p ∈ ps, Carries s t k p p g)
    (c : Cursor) :
    attempts s (c.carry k) ps =
      (attempts t c ps).map (Result.carry k g) (List.map (Failure.carry k)) := by
  induction ps with
  | nil => rfl
  | cons p ps ih =>
    rw [List.forall_mem_cons] at h
    rw [attempts, attempts, h.1 c, ih h.2]
    cases p t c with
    | ok d a => rfl
    | failed f =>
      simp only [Result.carry, f.carry_committed]
      split
      · rfl
      · cases attempts t c ps <;> rfl

theorem Carries.choice {ps : List (Parser α)} (h : ∀ p ∈ ps, Carries s t k p p g) :
    Carries s t k (choice ps) (choice ps) g := by
  intro c
  rw [Parser.choice, Parser.choice, attempts_carry h]
  cases attempts t c ps with
  | inl result => rfl
  | inr failures => exact congrArg Result.failed (Failure.carry_merge k c.offset failures)

theorem Carries.manyWithin (hp : Carries s t k p p' g) (n : Nat) :
    Carries s t k (manyWithin p n) (manyWithin p' n) (List.map g) := by
  induction n with
  | zero => exact .pure rfl
  | succ n ih =>
    intro c
    dsimp only [Parser.manyWithin]
    rw [hp c]
    cases p t c with
    | failed f =>
      simp only [Result.carry, f.carry_committed]
      split <;> rfl
    | ok d a =>
      simp only [Result.carry, ih d]
      have hstill : (d.carry k).offset = (c.carry k).offset ↔ d.offset = c.offset :=
        Nat.add_right_cancel_iff
      simp only [hstill]
      split
      · rfl
      · cases Parser.manyWithin p n t d <;> rfl

theorem Carries.many (h : s.Rest t k) (hp : Carries s t k p p' g) :
    Carries s t k (many p) (many p') (List.map g) := by
  intro c
  have hleft : s.length - (c.carry k).offset = t.length - c.offset := h.left c.offset
  -- As much is left of both sources, so both runs have the same fuel.
  rw [Parser.many, Parser.many, hleft]
  exact hp.manyWithin _ c

theorem Carries.sepBy (h : s.Rest t k) (hp : Carries s t k p p' g)
    (hq : Carries s t k q q' g') : Carries s t k (sepBy p q) (sepBy p' q') (List.map g) := by
  intro c
  rw [Parser.sepBy, Parser.sepBy, hp c]
  cases p t c with
  | failed f =>
    simp only [Result.carry, f.carry_committed]
    split <;> rfl
  | ok d a =>
    simp only [Result.carry, Carries.many h (hq.seqRight hp) d]
    cases Parser.many (q *> p) t d <;> rfl

end Choices

section Texts

variable (h : s.Rest t k)

include h

theorem Carries.mapSpan (hp : Carries s t k p p' g) {f f' : α → Span → β}
    (hf : ∀ a span, f' (g a) (span.carry s k) = g' (f a span)) :
    Carries s t k (mapSpan p f) (mapSpan p' f') g' := by
  intro c
  rw [Parser.mapSpan, Parser.mapSpan, hp c]
  cases p t c with
  | ok d a => simp only [Result.carry, h.spanTo, hf]
  | failed f => rfl

theorem Carries.consumed (hp : Carries s t k p p' g) :
    Carries s t k (consumed p) (consumed p') id := by
  intro c
  rw [Parser.consumed, Parser.consumed, hp c]
  cases p t c with
  | ok d a => exact congrArg (Result.ok (d.carry k)) h.slice
  | failed f => rfl

theorem Carries.trivia : Carries s t k trivia trivia id := by
  intro c
  have hskip : s.skip (c.carry k).offset = t.skip c.offset + k := h.skip
  exact congrArg (fun i => Result.ok ⟨i, c.depth⟩ ()) hskip

theorem Carries.spaced (hp : Carries s t k p p' g) :
    Carries s t k (spaced p) (spaced p') g := (Carries.trivia h).seqRight hp

theorem Carries.literal (text : Text) : Carries s t k (literal text) (literal text) id := by
  intro c
  have hat : s.hasAt (c.carry k).offset text = t.hasAt c.offset text := h.hasAt
  rw [Parser.literal, Parser.literal, hat, h.advance]
  split <;> rfl

theorem Carries.literalBefore (text : Text) (forbidden : Option CodeUnit → Bool) :
    Carries s t k (literalBefore text forbidden) (literalBefore text forbidden) id := by
  intro c
  have hat : s.hasAt (c.carry k).offset text = t.hasAt c.offset text := h.hasAt
  have hunit : s.unit? ((c.carry k).offset + text.length) = t.unit? (c.offset + text.length) := by
    rw [← h.unit?, Cursor.carry, Nat.add_right_comm]
  rw [Parser.literalBefore, Parser.literalBefore, hat, hunit, h.advance]
  split <;> rfl

theorem Carries.keyword (word : Text) : Carries s t k (keyword word) (keyword word) id :=
  .literalBefore h word _

theorem Carries.satisfy (test : CodeUnit → Bool) (description : Text) :
    Carries s t k (satisfy test description) (satisfy test description) id := by
  intro c
  have hunit : (c.carry k).peek? s = c.peek? t := h.unit? c.offset
  rw [Parser.satisfy, Parser.satisfy, hunit, h.advance]
  cases c.peek? t with
  | none => rfl
  | some u =>
    dsimp only
    split <;> rfl

theorem Carries.takeWhile (test : CodeUnit → Bool) :
    Carries s t k (takeWhile test) (takeWhile test) id := by
  intro c
  have hrun : s.runEnd test (s.length - (c.carry k).offset) (c.carry k).offset =
      t.runEnd test (t.length - c.offset) c.offset + k := by
    rw [Cursor.carry, h.left, h.runEnd]
  simp only [Parser.takeWhile, hrun]
  exact congrArg (Result.ok _) h.slice

theorem Carries.endOfInput : Carries s t k endOfInput endOfInput id := by
  intro c
  rw [Parser.endOfInput, Parser.endOfInput, h.atEnd]
  split <;> rfl

end Texts

end Parser

end BrookSyntax
