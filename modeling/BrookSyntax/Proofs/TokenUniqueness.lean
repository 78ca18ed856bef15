import BrookSyntax.Proofs.Lookahead

namespace BrookSyntax

namespace Source

variable {s : Source} {i j k m : Nat} {kind kind' : TokenKind} {ts us : List Token}

/-- A token that a letter starts is the longest word there, reserved or not. -/
theorem TokenAt.word {u : CodeUnit} (h : s.TokenAt i kind j) (hu : s.unit? i = some u)
    (hw : u.isWordStart = true) :
    ∃ w, IsWord w ∧ s.hasAt i w = true ∧ (s.unit? (i + w.length)).any CodeUnit.isWordPart = false ∧
      j = i + w.length ∧ kind = if w ∈ keywords then .keyword w else .name w := by
  obtain ⟨w, rfl⟩ | ⟨w, rfl⟩ := (h.firstUnit hu).1 hw
  · obtain ⟨t, ⟨rfl, hmem⟩, hat, rfl, hend⟩ := h
    exact ⟨t, keywords_isWord hmem, hat, hend, rfl, (if_pos hmem).symm⟩
  · obtain ⟨t, ⟨rfl, hword, hnot⟩, hat, rfl, hend⟩ := h
    exact ⟨t, hword, hat, hend, rfl, (if_neg hnot).symm⟩

theorem TokenAt.unique_of_no_mark (h : s.TokenAt i kind j) (h' : s.TokenAt i kind' k)
    (hk : ∀ m, kind ≠ .mark m) : kind = kind' ∧ j = k := by
  obtain ⟨u, hu, hs⟩ := h.first
  have hi : i ≤ s.length := Nat.le_of_lt (lt_length_of_unit? hu)
  have words (hw : u.isWordStart = true) : kind = kind' ∧ j = k := by
    obtain ⟨w, hword, hat, hstop, rfl, rfl⟩ := h.word hu hw
    obtain ⟨w', hword', hat', hstop', rfl, rfl⟩ := h'.word hu hw
    obtain rfl := run_unique hat hword.2 hstop hat' hword'.2 hstop'
    exact ⟨rfl, rfl⟩
  cases kind with
  | keyword w | name w => exact words hs.2
  | mark m => exact absurd rfl (hk m)
  | number x =>
    obtain ⟨x', rfl⟩ := (h'.firstUnit hu).2.1 hs
    have hread : Grammar.number s ⟨i, 0⟩ = .ok ⟨j, 0⟩ _ :=
      (Grammar.number_eq_ok hi).2 ⟨x, h, rfl, rfl⟩
    have hread' : Grammar.number s ⟨i, 0⟩ = .ok ⟨k, 0⟩ _ :=
      (Grammar.number_eq_ok hi).2 ⟨x', h', rfl, rfl⟩
    rw [hread] at hread'
    cases hread'
    exact ⟨rfl, rfl⟩
  | string x =>
    obtain ⟨x', rfl⟩ := (h'.firstUnit hu).2.2 hs
    have hread : Grammar.string s ⟨i, 0⟩ = .ok ⟨j, 0⟩ _ :=
      (Grammar.string_eq_ok hi).2 ⟨x, h, rfl, rfl⟩
    have hread' : Grammar.string s ⟨i, 0⟩ = .ok ⟨k, 0⟩ _ :=
      (Grammar.string_eq_ok hi).2 ⟨x', h', rfl, rfl⟩
    rw [hread] at hread'
    cases hread'
    exact ⟨rfl, rfl⟩

theorem TokenAt.unique (h : s.TokenAt i kind j) (h' : s.TokenAt i kind' k) :
    kind = kind' ∧ j = k := by
  cases kind with
  | mark m =>
    cases kind' with
    | mark m' =>
      obtain rfl := h.mark_unique h'
      exact ⟨rfl, h.hasAt_mark.2.trans h'.hasAt_mark.2.symm⟩
    | keyword w | name w | number x | string x =>
      obtain ⟨hkind, hend⟩ := h'.unique_of_no_mark h nofun
      exact ⟨hkind.symm, hend.symm⟩
  | keyword w | name w | number x | string x => exact h.unique_of_no_mark h' nofun

/-- Tokens from an offset on are the first ones of all the tokens there. -/
theorem LexedAfter.prefix_of_all (h : s.LexedAfter i us j) (hl : s.LexedAfter i ts m)
    (ht : s.TriviaAt m s.length) (hi : i ≤ s.length) :
    ∃ vs, ts = us ++ vs ∧ s.LexedAfter j vs m := by
  induction us generalizing i ts with
  | nil =>
    obtain rfl := h.of_nil
    exact ⟨ts, rfl, hl⟩
  | cons u us ih =>
    obtain ⟨k, hu, hspan, -, hk, hus⟩ := h.uncons hi
    cases ts with
    | nil =>
      obtain rfl := hl.of_nil
      rw [ht.skip_eq noTriviaAt_length hi] at hu
      have := (hu.bounds (Nat.le_refl _)).1
      have := (hu.bounds (Nat.le_refl _)).2
      omega
    | cons t ts =>
      obtain ⟨k', ht', hspan', -, -, hts⟩ := hl.uncons hi
      obtain ⟨hkind, rfl⟩ := hu.unique ht'
      obtain ⟨vs, rfl, hvs⟩ := ih hus hts hk
      have heq : u = t := by
        obtain ⟨kind, a⟩ := u
        obtain ⟨kind', a'⟩ := t
        obtain rfl : kind = kind' := hkind
        obtain rfl : a = a' := hspan.trans hspan'.symm
        rfl
      exact ⟨vs, by rw [heq, List.cons_append], hvs⟩

/-- The tokens up to the end of the source, seen from behind the trivia before them. -/
theorem LexedAfter.from_skip (hl : s.LexedAfter i ts m) (ht : s.TriviaAt m s.length)
    (hi : i ≤ s.length) : ∃ k, s.LexedAfter (s.skip i) ts k ∧ s.TriviaAt k s.length := by
  obtain ⟨rfl, rfl⟩ | hl := (lexedAfter_iff hi).1 hl
  · rw [ht.skip_eq noTriviaAt_length hi]
    exact ⟨s.length, .inl ⟨rfl, rfl⟩, .refl _⟩
  · exact ⟨m, hl.after_here, ht⟩

end Source

end BrookSyntax
