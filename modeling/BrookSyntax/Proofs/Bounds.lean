import BrookSyntax.Proofs.Scanning

namespace BrookSyntax

/-- The failure and its frames lie between two offsets, and no frame starts before one outside of
it. -/
structure Failure.Within (f : Failure) (i j : Nat) : Prop where
  start_le : i ≤ f.offset
  le_stop : f.offset ≤ j
  frames : ∀ frame ∈ f.frames, i ≤ frame.offset ∧ frame.offset ≤ f.offset
  nested : f.frames.Pairwise fun inner outer => outer.offset ≤ inner.offset

/-- The result lies between a cursor and the end of the source. -/
def Result.Within {α : Type} (r : Result α) (s : Source) (c : Cursor) : Prop :=
  match r with
  | .ok d _ => d.depth = c.depth ∧ c.offset ≤ d.offset ∧ d.offset ≤ s.length
  | .failed f => f.Within c.offset s.length

namespace Failure

variable {f : Failure} {i j k : Nat}

theorem Within.mono (h : f.Within j k) (hij : i ≤ j) : f.Within i k where
  start_le := Nat.le_trans hij h.start_le
  le_stop := h.le_stop
  frames frame hf := ⟨Nat.le_trans hij (h.frames frame hf).1, (h.frames frame hf).2⟩
  nested := h.nested

theorem Within.bare (hf : f.frames = []) (h : i ≤ f.offset) (h' : f.offset ≤ j) : f.Within i j where
  start_le := h
  le_stop := h'
  frames frame hm := by rw [hf] at hm; cases hm
  nested := by rw [hf]; exact .nil

theorem Within.within (h : f.Within i j) (label : Text) : (f.within label i).Within i j where
  start_le := h.start_le
  le_stop := h.le_stop
  frames frame hm := by
    rcases List.mem_append.1 hm with hm | hm
    · exact h.frames frame hm
    · rw [List.mem_singleton.1 hm]
      exact ⟨Nat.le_refl i, h.start_le⟩
  nested := by
    refine List.pairwise_append.2 ⟨h.nested, List.pairwise_singleton _ _, ?_⟩
    intro inner hi outer ho
    rw [List.mem_singleton.1 ho]
    exact (h.frames inner hi).1

theorem Within.asCommitted (h : f.Within i j) : f.asCommitted.Within i j :=
  ⟨h.start_le, h.le_stop, h.frames, h.nested⟩

theorem Within.merge {failures : List Failure} (hij : i ≤ j) (h : ∀ f ∈ failures, f.Within i j) :
    (Failure.merge i failures).Within i j := by
  cases failures with
  | nil => exact .bare rfl (Nat.le_refl i) hij
  | cons f rest =>
    rw [Failure.merge]
    split
    · exact h _ (Parser.farthest_mem f rest)
    · exact .bare rfl (Nat.le_refl i) hij

end Failure

namespace Parser

open Source

variable {α β γ : Type}

/-- A success of the parser reads something. -/
def Moves (p : Parser α) : Prop :=
  ∀ ⦃s : Source⦄ ⦃c d : Cursor⦄ ⦃a : α⦄, c.offset ≤ s.length → p s c = .ok d a →
    c.offset < d.offset

/-- From every cursor within the source, the parser ends between there and the end. -/
def WellBehaved (p : Parser α) : Prop :=
  ∀ (s : Source) (c : Cursor), c.offset ≤ s.length → (p s c).Within s c

section Results

variable {s : Source} {c d : Cursor}

theorem Result.Within.mono {r : Result α} (h : r.Within s d) (hd : d.depth = c.depth)
    (hle : c.offset ≤ d.offset) : r.Within s c := by
  cases r with
  | ok e a => exact ⟨h.1.trans hd, Nat.le_trans hle h.2.1, h.2.2⟩
  | failed f => exact Failure.Within.mono h hle

end Results

theorem WellBehaved.advances {p : Parser α} (h : p.WellBehaved) : p.Advances := by
  intro s c d a hc hp
  have hr := h s c hc
  rw [hp] at hr
  exact hr.2

theorem WellBehaved.pure (a : α) : (pure a : Parser α).WellBehaved :=
  fun _ _ hc => ⟨rfl, Nat.le_refl _, hc⟩

theorem WellBehaved.bind {p : Parser α} {f : α → Parser β} (hp : p.WellBehaved)
    (hf : ∀ a, (f a).WellBehaved) : (p >>= f).WellBehaved := by
  intro s c hc
  have hr := hp s c hc
  rw [bind_apply]
  cases h : p s c with
  | ok d a =>
    rw [h] at hr
    exact Result.Within.mono (hf a s d hr.2.2) hr.1 hr.2.1
  | failed f => rwa [h] at hr

theorem WellBehaved.map {p : Parser α} (hp : p.WellBehaved) (f : α → β) :
    (f <$> p).WellBehaved := hp.bind fun a => .pure (f a)

theorem WellBehaved.seqRight {p : Parser α} {q : Parser β} (hp : p.WellBehaved)
    (hq : q.WellBehaved) : (p *> q).WellBehaved := by
  intro s c hc
  exact hp.bind (fun _ => hq) s c hc

theorem WellBehaved.seqLeft {p : Parser α} {q : Parser β} (hp : p.WellBehaved)
    (hq : q.WellBehaved) : (p <* q).WellBehaved := by
  intro s c hc
  have h := hp.bind (fun a => hq.bind fun _ => .pure a) s c hc
  rw [seqLeft_apply]
  rw [bind_apply] at h
  cases hpc : p s c with
  | ok d a =>
    rw [hpc] at h
    exact h
  | failed f => rwa [hpc] at h

theorem WellBehaved.trivia : trivia.WellBehaved :=
  fun _ _ hc => ⟨rfl, le_skip hc, skip_le hc⟩

theorem WellBehaved.spaced {p : Parser α} (hp : p.WellBehaved) : (spaced p).WellBehaved :=
  WellBehaved.trivia.seqRight hp

theorem WellBehaved.between {p : Parser α} {q : Parser β} {r : Parser γ} (hp : p.WellBehaved)
    (hq : q.WellBehaved) (hr : r.WellBehaved) : (between p q r).WellBehaved :=
  (hp.seqRight hq).seqLeft hr

theorem WellBehaved.mapSpan {p : Parser α} (hp : p.WellBehaved) (f : α → Span → β) :
    (mapSpan p f).WellBehaved := by
  intro s c hc
  have hr := hp s c hc
  rw [Parser.mapSpan]
  cases h : p s c with
  | ok d a => rwa [h] at hr
  | failed f => rwa [h] at hr

theorem WellBehaved.consumed {p : Parser α} (hp : p.WellBehaved) : (consumed p).WellBehaved := by
  intro s c hc
  have hr := hp s c hc
  rw [Parser.consumed]
  cases h : p s c with
  | ok d a => rwa [h] at hr
  | failed f => rwa [h] at hr

theorem WellBehaved.labelled {p : Parser α} (hp : p.WellBehaved) (label : Text) :
    (labelled label p).WellBehaved := by
  intro s c hc
  have hr := hp s c hc
  rw [Parser.labelled]
  cases h : p s c with
  | ok d a => rwa [h] at hr
  | failed f =>
    rw [h] at hr
    exact Failure.Within.within hr label

theorem WellBehaved.committed {p : Parser α} (hp : p.WellBehaved) :
    (committed p).WellBehaved := by
  intro s c hc
  have hr := hp s c hc
  rw [Parser.committed]
  cases h : p s c with
  | ok d a => rwa [h] at hr
  | failed f =>
    rw [h] at hr
    exact Failure.Within.asCommitted hr

theorem WellBehaved.describedAs {p : Parser α} (hp : p.WellBehaved) (description : Text) :
    (describedAs description p).WellBehaved := by
  intro s c hc
  have hr := hp s c hc
  rw [Parser.describedAs]
  cases h : p s c with
  | ok d a => rwa [h] at hr
  | failed f =>
    rw [h] at hr
    dsimp only
    split
    · exact hr
    · exact Failure.Within.bare rfl (Nat.le_refl _) hc

theorem WellBehaved.fail (cause : Cause) : (fail cause : Parser α).WellBehaved :=
  fun _ _ hc => .bare rfl (Nat.le_refl _) hc

theorem WellBehaved.abort (cause : Cause) : (abort cause : Parser α).WellBehaved :=
  fun _ _ hc => .bare rfl (Nat.le_refl _) hc

theorem WellBehaved.deeper {p : Parser α} (hp : p.WellBehaved) : (deeper p).WellBehaved := by
  intro s c hc
  have hr := hp s ⟨c.offset, c.depth + 1⟩ hc
  rw [Parser.deeper]
  split
  · exact WellBehaved.abort _ s c hc
  · cases h : p s ⟨c.offset, c.depth + 1⟩ with
    | ok d a =>
      rw [h] at hr
      exact ⟨rfl, hr.2⟩
    | failed f => rwa [h] at hr

theorem attempts_within {ps : List (Parser α)} (h : ∀ p ∈ ps, p.WellBehaved) {s : Source}
    {c : Cursor} (hc : c.offset ≤ s.length) :
    match attempts s c ps with
    | .inl result => result.Within s c
    | .inr failures => ∀ f ∈ failures, f.Within c.offset s.length := by
  induction ps with
  | nil =>
    intro f hf
    cases hf
  | cons p ps ih =>
    have hr := h p List.mem_cons_self s c hc
    have ih := ih fun q hq => h q (List.mem_cons_of_mem _ hq)
    rw [attempts_cons]
    cases hp : p s c with
    | ok d a => rwa [hp] at hr
    | failed f =>
      rw [hp] at hr
      cases hf : f.committed with
      | true =>
        simp only [hf, ↓reduceIte]
        exact hr
      | false =>
        simp only [hf, Bool.false_eq_true, ↓reduceIte]
        cases hps : attempts s c ps with
        | inl result => rwa [hps] at ih
        | inr failures =>
          rw [hps] at ih
          intro g hg
          rcases List.mem_cons.1 hg with rfl | hg
          · exact hr
          · exact ih g hg

theorem WellBehaved.choice {ps : List (Parser α)} (h : ∀ p ∈ ps, p.WellBehaved) :
    (choice ps).WellBehaved := by
  intro s c hc
  have hr := attempts_within h hc
  rw [Parser.choice]
  cases hps : attempts s c ps with
  | inl result => rwa [hps] at hr
  | inr failures =>
    rw [hps] at hr
    exact Failure.Within.merge hc hr

theorem WellBehaved.optional {p : Parser α} (hp : p.WellBehaved) : (optional p).WellBehaved := by
  intro s c hc
  have hr := hp s c hc
  rw [Parser.optional]
  cases h : p s c with
  | ok d a => rwa [h] at hr
  | failed f =>
    rw [h] at hr
    dsimp only
    split
    · exact hr
    · exact ⟨rfl, Nat.le_refl _, hc⟩

theorem WellBehaved.attempt {p : Parser α} (hp : p.WellBehaved) : (attempt p).WellBehaved := by
  intro s c hc
  have hr := hp s c hc
  rw [Parser.attempt]
  cases h : p s c with
  | ok d a => rwa [h] at hr
  | failed f => exact ⟨rfl, Nat.le_refl _, hc⟩

theorem WellBehaved.manyWithin {p : Parser α} (hp : p.WellBehaved) (n : Nat) :
    (manyWithin p n).WellBehaved := by
  induction n with
  | zero => exact .pure []
  | succ n ih =>
    intro s c hc
    have hr := hp s c hc
    cases h : p s c with
    | failed f =>
      rw [h] at hr
      simp only [Parser.manyWithin, h]
      split
      · exact hr
      · exact ⟨rfl, Nat.le_refl _, hc⟩
    | ok d a =>
      rw [h] at hr
      have hrest := Result.Within.mono (ih s d hr.2.2) hr.1 hr.2.1
      simp only [Parser.manyWithin, h]
      split
      · exact ⟨rfl, Nat.le_refl _, hc⟩
      · cases hm : Parser.manyWithin p n s d with
        | ok e as => rwa [hm] at hrest
        | failed f => rwa [hm] at hrest

theorem WellBehaved.many {p : Parser α} (hp : p.WellBehaved) : (many p).WellBehaved :=
  fun s c hc => hp.manyWithin _ s c hc

theorem WellBehaved.sepBy {item : Parser α} {separator : Parser β} (hi : item.WellBehaved)
    (hs : separator.WellBehaved) : (sepBy item separator).WellBehaved := by
  intro s c hc
  have hr := hi s c hc
  rw [Parser.sepBy]
  cases h : item s c with
  | failed f =>
    rw [h] at hr
    dsimp only
    split
    · exact hr
    · exact ⟨rfl, Nat.le_refl _, hc⟩
  | ok d a =>
    rw [h] at hr
    have hrest := Result.Within.mono ((hs.seqRight hi).many s d hr.2.2) hr.1 hr.2.1
    dsimp only
    cases hm : Parser.many (separator *> item) s d with
    | ok e as => rwa [hm] at hrest
    | failed f => rwa [hm] at hrest

theorem WellBehaved.literal (text : Text) : (literal text).WellBehaved := by
  intro s c hc
  rw [Parser.literal]
  split
  · next hat => exact ⟨rfl, Nat.le_min.2 ⟨Nat.le_add_right _ _, hc⟩, Nat.min_le_right _ _⟩
  · exact .bare rfl (Nat.le_refl _) hc

theorem WellBehaved.literalBefore (text : Text) (forbidden : Option CodeUnit → Bool) :
    (literalBefore text forbidden).WellBehaved := by
  intro s c hc
  rw [Parser.literalBefore]
  split
  · exact ⟨rfl, Nat.le_min.2 ⟨Nat.le_add_right _ _, hc⟩, Nat.min_le_right _ _⟩
  · exact .bare rfl (Nat.le_refl _) hc

theorem WellBehaved.keyword (word : Text) : (keyword word).WellBehaved :=
  .literalBefore word _

theorem WellBehaved.satisfy (test : CodeUnit → Bool) (description : Text) :
    (satisfy test description).WellBehaved := by
  intro s c hc
  rw [Parser.satisfy]
  split
  · split
    · exact ⟨rfl, Nat.le_min.2 ⟨Nat.le_add_right _ _, hc⟩, Nat.min_le_right _ _⟩
    · exact .bare rfl (Nat.le_refl _) hc
  · exact .bare rfl (Nat.le_refl _) hc

theorem WellBehaved.takeWhile (test : CodeUnit → Bool) : (takeWhile test).WellBehaved := by
  intro s c hc
  cases h : Parser.takeWhile test s c with
  | ok d w =>
    obtain ⟨hat, -, -, rfl⟩ := (takeWhile_eq_ok hc).1 h
    exact ⟨rfl, Nat.le_add_right _ _, add_length_le hat hc⟩
  | failed f => cases h

theorem WellBehaved.endOfInput : endOfInput.WellBehaved := by
  intro s c hc
  rw [Parser.endOfInput]
  split
  · exact ⟨rfl, Nat.le_refl _, hc⟩
  · exact .bare rfl (Nat.le_refl _) hc

section Consumption

variable {p : Parser α}

theorem Moves.literal {t : Text} (ht : t ≠ []) : (literal t).Moves := by
  intro s c d a hc hok
  obtain ⟨-, rfl, -⟩ := (literal_eq_ok hc).1 hok
  have := List.length_pos_iff.2 ht
  dsimp only
  omega

theorem Moves.keyword {word : Text} (hw : word ≠ []) : (keyword word).Moves := by
  intro s c d a hc hok
  obtain ⟨-, -, rfl, -⟩ := (literalBefore_eq_ok hc).1 hok
  have := List.length_pos_iff.2 hw
  dsimp only
  omega

theorem Moves.seqRight {q : Parser β} (hp : p.Moves) (hw : p.WellBehaved) (hq : q.WellBehaved) :
    (p *> q).Moves := by
  intro s c d b hc hok
  obtain ⟨e, a, ha, hb⟩ := seqRight_eq_ok.1 hok
  exact Nat.lt_of_lt_of_le (hp hc ha) (hq.advances (hw.advances hc ha).2 hb).1

theorem Moves.mapSpan (hp : p.Moves) (f : α → Span → β) : (mapSpan p f).Moves := by
  intro s c d b hc hok
  obtain ⟨a, ha, -⟩ := mapSpan_eq_ok.1 hok
  exact hp hc ha

theorem Moves.labelled (hp : p.Moves) (label : Text) : (labelled label p).Moves := by
  intro s c d a hc hok
  exact hp hc (labelled_eq_ok.1 hok)

theorem Moves.map (hp : p.Moves) (f : α → β) : (f <$> p).Moves := by
  intro s c d b hc hok
  obtain ⟨a, ha, -⟩ := map_eq_ok.1 hok
  exact hp hc ha

theorem Moves.choice {ps : List (Parser α)} (h : ∀ p ∈ ps, p.Moves) : (choice ps).Moves := by
  intro s c d a hc hok
  induction ps with
  | nil => exact absurd hok choice_nil_ne_ok
  | cons p ps ih =>
    rw [List.forall_mem_cons] at h
    obtain hp | ⟨-, hps⟩ := choice_cons_eq_ok.1 hok
    · exact h.1 hc hp
    · exact ih h.2 hps

/-- The parser stays within the source and reads something. -/
structure Consumes (p : Parser α) : Prop where
  wellBehaved : p.WellBehaved
  moves : p.Moves

theorem Consumes.map (hp : p.Consumes) (f : α → β) : (f <$> p).Consumes :=
  ⟨hp.wellBehaved.map f, hp.moves.map f⟩

theorem Consumes.choice {ps : List (Parser α)} (h : ∀ p ∈ ps, p.Consumes) :
    (choice ps).Consumes :=
  ⟨.choice fun p hp => (h p hp).wellBehaved, .choice fun p hp => (h p hp).moves⟩

end Consumption

end Parser

end BrookSyntax
