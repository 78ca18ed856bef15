import Mathlib.Data.List.Forall2
import BrookSyntax.Proofs.Bounds

namespace BrookSyntax

theorem List.Forall₂.forall_mem_right {α β : Type} {R : α → β → Prop} {P : β → Prop}
    {as : List α} {bs : List β} (h : List.Forall₂ R as bs)
    (hP : ∀ a ∈ as, ∀ b, R a b → P b) : ∀ b ∈ bs, P b := by
  induction h with
  | nil => exact nofun
  | cons hab hs ih =>
    rw [List.forall_mem_cons] at hP ⊢
    exact ⟨hP.1 _ hab, ih hP.2⟩

theorem List.Forall₂.exists_of_mem_left {α β : Type} {R : α → β → Prop} {as : List α} {bs : List β}
    {a : α} (h : List.Forall₂ R as bs) (ha : a ∈ as) : ∃ b, R a b := by
  induction h with
  | nil => cases ha
  | cons hab hs ih =>
    rcases List.mem_cons.1 ha with rfl | ha
    · exact ⟨_, hab⟩
    · exact ih ha

namespace Parser

variable {α β γ : Type} {s : Source} {c d : Cursor} {f : Failure}

theorem bind_eq_failed {p : Parser α} {g : α → Parser β} :
    (p >>= g) s c = .failed f ↔
      p s c = .failed f ∨ ∃ d a, p s c = .ok d a ∧ g a s d = .failed f := by
  rw [bind_apply]
  cases p s c with
  | ok d a => simp
  | failed e => simp

theorem map_eq_failed {p : Parser α} {g : α → β} :
    (g <$> p) s c = .failed f ↔ p s c = .failed f := by
  rw [map_apply]
  cases p s c with
  | ok d a => simp
  | failed e => simp

theorem seqRight_eq_failed {p : Parser α} {q : Parser β} :
    (p *> q) s c = .failed f ↔
      p s c = .failed f ∨ ∃ d a, p s c = .ok d a ∧ q s d = .failed f := by
  rw [seqRight_apply]
  cases p s c with
  | ok d a => simp
  | failed e => simp

theorem seqLeft_eq_failed {p : Parser α} {q : Parser β} :
    (p <* q) s c = .failed f ↔
      p s c = .failed f ∨ ∃ d a, p s c = .ok d a ∧ q s d = .failed f := by
  rw [seqLeft_apply]
  cases p s c with
  | ok d a =>
    cases hq : q s d with
    | ok e b => simp [hq]
    | failed e => simp [hq]
  | failed e => simp

theorem mapSpan_eq_failed {p : Parser α} {g : α → Span → β} :
    mapSpan p g s c = .failed f ↔ p s c = .failed f := by
  rw [mapSpan]
  cases p s c with
  | ok d a => simp
  | failed e => simp

theorem consumed_eq_failed {p : Parser α} : consumed p s c = .failed f ↔ p s c = .failed f := by
  rw [consumed]
  cases p s c with
  | ok d a => simp
  | failed e => simp

theorem labelled_eq_failed {label : Text} {p : Parser α} :
    labelled label p s c = .failed f ↔
      ∃ g, p s c = .failed g ∧ g.within label c.offset = f := by
  rw [labelled]
  cases p s c with
  | ok d a => simp
  | failed e => simp

theorem committed_eq_failed {p : Parser α} :
    committed p s c = .failed f ↔ ∃ g, p s c = .failed g ∧ g.asCommitted = f := by
  rw [committed]
  cases p s c with
  | ok d a => simp
  | failed e => simp

theorem deeper_eq_failed {p : Parser α} :
    deeper p s c = .failed f ↔
      maxDepth ≤ c.depth ∧ (tooDeep : Parser α) s c = .failed f ∨
        c.depth < maxDepth ∧ p s ⟨c.offset, c.depth + 1⟩ = .failed f := by
  rw [deeper]
  by_cases h : maxDepth ≤ c.depth
  · simp [h, Int.not_lt.2 h]
  · rw [if_neg h]
    cases p s ⟨c.offset, c.depth + 1⟩ with
    | ok d a => simp [h]
    | failed e => simp [h, Int.not_le.1 h]

/-- A failure that is committed or got beyond the start stays as it is; any other is replaced. -/
theorem describedAs_eq_failed {description : Text} {p : Parser α} :
    describedAs description p s c = .failed f ↔
      ∃ g, p s c = .failed g ∧
        ((g.committed = true ∨ c.offset < g.offset) ∧ g = f ∨
          (g.committed = false ∧ g.offset ≤ c.offset) ∧
            { cause := .token description, offset := c.offset } = f) := by
  rw [describedAs]
  cases p s c with
  | ok d a => simp
  | failed e =>
    cases hc : e.committed with
    | true => simp [hc]
    | false =>
      by_cases hlt : c.offset < e.offset
      · simp [hc, hlt, Nat.not_le.2 hlt]
      · simp [hc, hlt, Nat.le_of_not_lt hlt]

theorem optional_eq_failed {p : Parser α} :
    optional p s c = .failed f ↔ p s c = .failed f ∧ f.committed = true := by
  rw [optional]
  cases p s c with
  | ok d a => simp
  | failed e =>
    cases hc : e.committed with
    | true =>
      simp only [hc, ↓reduceIte, Result.failed.injEq]
      constructor
      · rintro rfl
        exact ⟨rfl, hc⟩
      · exact And.left
    | false =>
      simp only [hc, Bool.false_eq_true, ↓reduceIte, reduceCtorEq, Result.failed.injEq, false_iff]
      rintro ⟨rfl, hf⟩
      rw [hc] at hf
      cases hf

theorem attempt_ne_failed {p : Parser α} : attempt p s c ≠ .failed f := by
  rw [attempt]
  cases p s c <;> simp

/-- The parser fails with a failure that is not committed. -/
abbrev FailsOpen (s : Source) (c : Cursor) (p : Parser α) (f : Failure) : Prop :=
  p s c = .failed f ∧ f.committed = false

theorem attempts_append {ps qs : List (Parser α)} {fs : List Failure}
    (h : List.Forall₂ (FailsOpen s c) ps fs) :
    attempts s c (ps ++ qs) =
      match attempts s c qs with
      | .inl result => .inl result
      | .inr failures => .inr (fs ++ failures) := by
  induction h with
  | nil =>
    rw [List.nil_append]
    cases attempts s c qs <;> rfl
  | cons hp hps ih =>
    rw [List.cons_append, attempts_cons, hp.1]
    simp only [hp.2, Bool.false_eq_true, ↓reduceIte, ih]
    cases attempts s c qs <;> rfl

/-- One of the alternatives fails for good, or all of them fail and their failures are merged. -/
theorem choice_eq_failed {ps : List (Parser α)} (h : choice ps s c = .failed f) :
    (∃ p ∈ ps, p s c = .failed f ∧ f.committed = true) ∨
      ∃ fs, List.Forall₂ (FailsOpen s c) ps fs ∧ Failure.merge c.offset fs = f := by
  have key : match attempts s c ps with
      | .inl result => ∀ f, result = .failed f → ∃ p ∈ ps, p s c = .failed f ∧ f.committed = true
      | .inr fs => List.Forall₂ (FailsOpen s c) ps fs := by
    clear h
    induction ps with
    | nil => exact .nil
    | cons p ps ih =>
      rw [attempts_cons]
      cases hp : p s c with
      | ok d a => exact nofun
      | failed e =>
        cases he : e.committed with
        | true =>
          simp only [he, ↓reduceIte]
          rintro f ⟨⟩
          exact ⟨p, List.mem_cons_self, hp, he⟩
        | false =>
          simp only [he, Bool.false_eq_true, ↓reduceIte]
          cases hps : attempts s c ps with
          | inl result =>
            rw [hps] at ih
            intro f hf
            obtain ⟨q, hq, hfail⟩ := ih f hf
            exact ⟨q, List.mem_cons_of_mem _ hq, hfail⟩
          | inr fs =>
            rw [hps] at ih
            exact .cons ⟨hp, he⟩ ih
  rw [choice] at h
  cases ha : attempts s c ps with
  | inl result =>
    rw [ha] at key h
    exact .inl (key f h)
  | inr fs =>
    rw [ha] at key h
    cases h
    exact .inr ⟨fs, key, rfl⟩

theorem Chain.of_many_failed {p : Parser α} (hp : p.Advances) (hc : c.offset ≤ s.length)
    (h : many p s c = .failed f) :
    ∃ as d, Chain p s c as d ∧ p s d = .failed f ∧ f.committed = true := by
  rw [many] at h
  generalize s.length - c.offset + 1 = n at h
  induction n generalizing c with
  | zero => cases h
  | succ n ih =>
    dsimp only [manyWithin] at h
    split at h
    · next e he =>
      split at h
      · next hcom =>
        cases h
        exact ⟨[], c, .nil c, he, hcom⟩
      · cases h
    · next e a ha =>
      obtain ⟨hle, hlen⟩ := hp hc ha
      split at h
      · cases h
      · split at h
        · cases h
        · next g hg =>
          cases h
          obtain ⟨as, d, hchain, hf⟩ := ih hlen hg
          exact ⟨a :: as, d, .cons ha (by omega) hchain, hf⟩

theorem Chain.le_length {p : Parser α} {as : List α} (hp : p.Advances) (h : Chain p s c as d)
    (hc : c.offset ≤ s.length) : d.offset ≤ s.length := by
  induction h with
  | nil c => exact hc
  | cons ha hlt hs ih => exact ih (hp hc ha).2

theorem sepBy_eq_failed {item : Parser α} {separator : Parser β} :
    sepBy item separator s c = .failed f ↔
      item s c = .failed f ∧ f.committed = true ∨
        ∃ d a, item s c = .ok d a ∧ many (separator *> item) s d = .failed f := by
  rw [sepBy]
  cases hi : item s c with
  | ok d a =>
    cases hm : many (separator *> item) s d with
    | ok e as => simp [hm]
    | failed e => simp [hm]
  | failed e =>
    cases hc : e.committed with
    | true =>
      simp only [hc, ↓reduceIte, Result.failed.injEq, reduceCtorEq, false_and, exists_false,
        or_false]
      constructor
      · rintro rfl
        exact ⟨rfl, hc⟩
      · exact And.left
    | false =>
      simp only [hc, Bool.false_eq_true, ↓reduceIte, reduceCtorEq, Result.failed.injEq, false_and,
        exists_false, or_false, false_iff]
      rintro ⟨rfl, hf⟩
      rw [hc] at hf
      cases hf

theorem literal_eq_failed {t : Text} :
    literal t s c = .failed f ↔
      s.hasAt c.offset t = false ∧ { cause := .literal t, offset := c.offset } = f := by
  rw [literal]
  cases s.hasAt c.offset t with
  | true => simp
  | false => simp

theorem literalBefore_eq_failed {t : Text} {forbidden : Option CodeUnit → Bool} :
    literalBefore t forbidden s c = .failed f ↔
      (s.hasAt c.offset t && !forbidden (s.unit? (c.offset + t.length))) = false ∧
        { cause := .literal t, offset := c.offset } = f := by
  rw [literalBefore]
  cases s.hasAt c.offset t && !forbidden (s.unit? (c.offset + t.length)) with
  | true => simp
  | false => simp

theorem satisfy_eq_failed {test : CodeUnit → Bool} {description : Text}
    (h : satisfy test description s c = .failed f) :
    { cause := .token description, offset := c.offset } = f := by
  rw [satisfy] at h
  split at h
  · split at h
    · cases h
    · cases h
      rfl
  · cases h
    rfl

end Parser

namespace Failure

theorem merge_offset (i : Nat) (fs : List Failure) :
    (merge i fs).offset = i ∨ merge i fs ∈ fs := by
  cases fs with
  | nil => exact .inl rfl
  | cons f rest =>
    rw [merge]
    split
    · exact .inr (Parser.farthest_mem f rest)
    · exact .inl rfl

theorem merge_cause (i : Nat) (fs : List Failure) :
    (∃ causes, (merge i fs).cause = .alternatives causes) ∨ merge i fs ∈ fs := by
  cases fs with
  | nil => exact .inl ⟨[], rfl⟩
  | cons f rest =>
    rw [merge]
    split
    · exact .inr (Parser.farthest_mem f rest)
    · exact .inl ⟨_, rfl⟩

theorem farthest_of_offset {i : Nat} {best : Failure} {fs : List Failure} (hbest : best.offset = i)
    (h : ∀ f ∈ fs, f.offset = i) : farthest best fs = best := by
  induction fs with
  | nil => rfl
  | cons f fs ih =>
    rw [farthest, hbest, h f List.mem_cons_self, if_neg (Nat.lt_irrefl i)]
    exact ih fun g hg => h g (List.mem_cons_of_mem _ hg)

/-- Failures that all stand at the start are merged into one that lists their causes. -/
theorem merge_of_offset {i : Nat} {fs : List Failure} (h : ∀ f ∈ fs, f.offset = i)
    (hlen : fs.length ≠ 1) :
    merge i fs = { cause := .alternatives (Cause.flatten (fs.map cause)), offset := i } := by
  cases fs with
  | nil => rfl
  | cons f rest =>
    have hf := h f List.mem_cons_self
    have hne : rest ≠ [] := by
      rintro rfl
      exact hlen rfl
    rw [merge, farthest_of_offset hf fun g hg => h g (List.mem_cons_of_mem _ hg), hf]
    simp only [Nat.lt_irrefl, hne, or_self, ↓reduceIte]

theorem merge_snoc {i : Nat} {fs : List Failure} {f : Failure} (h : ∀ g ∈ fs, g.offset = i)
    (hf : i < f.offset) : merge i (fs ++ [f]) = f := by
  have hfar {best : Failure} (hbest : best.offset = i) {gs : List Failure}
      (hgs : ∀ g ∈ gs, g.offset = i) : farthest best (gs ++ [f]) = f := by
    induction gs with
    | nil => rw [List.nil_append, farthest, farthest, hbest, if_pos hf]
    | cons g gs ih =>
      rw [List.cons_append, farthest, hbest, hgs g List.mem_cons_self, if_neg (Nat.lt_irrefl i)]
      exact ih fun g' hg' => hgs g' (List.mem_cons_of_mem _ hg')
  cases fs with
  | nil => simp only [List.nil_append, merge, farthest, hf, true_or, ↓reduceIte]
  | cons g gs =>
    have hbest := hfar (h g List.mem_cons_self) fun g' hg' => h g' (List.mem_cons_of_mem _ hg')
    simp only [List.cons_append, merge, hbest, hf, true_or, ↓reduceIte]

end Failure

end BrookSyntax
