import BrookSyntax.Proofs.Scanning

namespace BrookSyntax

namespace Source

variable {s : Source} {i j k n m : Nat} {starts others : List Nat} {t w : Text}

/-- A piece of trivia: a unit of white space, or a comment. -/
inductive PieceAt (s : Source) (i : Nat) : Nat → Prop where
  | space {u : CodeUnit} (hu : s.unit? i = some u) (hs : u.isSpace) : PieceAt s i (i + 1)
  | comment {j : Nat} (hc : s.CommentAt i j) : PieceAt s i j

/-- The text between two offsets splits into pieces of trivia, which start where the list says. -/
inductive PiecesAt (s : Source) : Nat → List Nat → Nat → Prop where
  | nil (i : Nat) : PiecesAt s i [] i
  | cons {i k j : Nat} {starts : List Nat} (h : s.PieceAt i k) (hs : PiecesAt s k starts j) :
      PiecesAt s i (i :: starts) j

theorem PieceAt.triviaAt (h : s.PieceAt i j) : s.TriviaAt i j := by
  cases h with
  | space hu hs => exact .space hu hs (.refl _)
  | comment hc => exact .comment hc (.refl j)

theorem PieceAt.unique (h : s.PieceAt i j) (h' : s.PieceAt i k) : j = k := by
  cases h with
  | space hu hs =>
    cases h' with
    | space => rfl
    | comment hc =>
      rw [not_space_of_slashes hc.slashes hu] at hs
      cases hs
  | comment hc =>
    cases h' with
    | space hu hs =>
      rw [not_space_of_slashes hc.slashes hu] at hs
      cases hs
    | comment hc' => exact hc.unique hc'

theorem PieceAt.not_noTriviaAt (h : s.PieceAt i j) : ¬ s.NoTriviaAt i := by
  intro hno
  cases h with
  | space hu hs =>
    have hspace := hno.space
    rw [hu, Option.any_some, hs] at hspace
    cases hspace
  | comment hc =>
    have hcomment := hno.comment
    rw [hc.slashes] at hcomment
    cases hcomment

theorem PiecesAt.triviaAt (h : s.PiecesAt i starts j) : s.TriviaAt i j := by
  induction h with
  | nil i => exact .refl i
  | cons h _ ih => exact h.triviaAt.trans ih

theorem TriviaAt.exists_pieces (h : s.TriviaAt i j) : ∃ starts, s.PiecesAt i starts j := by
  induction h with
  | refl i => exact ⟨[], .nil i⟩
  | space hu hs _ ih =>
    obtain ⟨starts, h⟩ := ih
    exact ⟨_, .cons (.space hu hs) h⟩
  | comment hc _ ih =>
    obtain ⟨starts, h⟩ := ih
    exact ⟨_, .cons (.comment hc) h⟩

/-- There is one split only that goes as far as trivia goes. -/
theorem PiecesAt.unique (h : s.PiecesAt i starts j) (hj : s.NoTriviaAt j)
    (h' : s.PiecesAt i others k) (hk : s.NoTriviaAt k) : others = starts ∧ k = j := by
  induction h generalizing others with
  | nil i =>
    cases h' with
    | nil => exact ⟨rfl, rfl⟩
    | cons h' _ => exact absurd hj h'.not_noTriviaAt
  | cons h _ ih =>
    cases h' with
    | nil => exact absurd hk h.not_noTriviaAt
    | cons h' hrest =>
      cases h.unique h'
      obtain ⟨rfl, rfl⟩ := ih hj hrest
      exact ⟨rfl, rfl⟩

theorem PiecesAt.triviaAt_of_mem (h : s.PiecesAt i starts j) (hk : k ∈ starts ++ [j]) :
    s.TriviaAt i k ∧ s.TriviaAt k j := by
  induction h with
  | nil i =>
    obtain rfl := List.mem_singleton.1 hk
    exact ⟨.refl k, .refl k⟩
  | cons h hs ih =>
    rcases List.mem_cons.1 hk with rfl | hk
    · exact ⟨.refl k, h.triviaAt.trans hs.triviaAt⟩
    · obtain ⟨hbefore, hafter⟩ := ih hk
      exact ⟨h.triviaAt.trans hbefore, hafter⟩

/-- The loop that skips trivia, without any bound on its rounds: in each round white space as
long as there is any, and then a comment up to its newline or the end; the last round finds no
comment. -/
inductive SkipsIn (s : Source) : Nat → Nat → Nat → Prop where
  | last {i : Nat} {t : Text} (ht : s.RunAt CodeUnit.isSpace i t)
      (hc : s.hasAt (i + t.length) "//" = false) : SkipsIn s i 1 (i + t.length)
  | round {i n j : Nat} {t w : Text} (ht : s.RunAt CodeUnit.isSpace i t)
      (hc : s.hasAt (i + t.length) "//")
      (hw : s.RunAt (· != CodeUnit.newline) (i + t.length) w)
      (h : SkipsIn s (i + t.length + w.length) n j) : SkipsIn s i (n + 1) j

theorem triviaAt_of_spaces (hat : s.hasAt i t = true) (hall : ∀ u ∈ t, u.isSpace = true) :
    s.TriviaAt i (i + t.length) := by
  induction t generalizing i with
  | nil => exact .refl i
  | cons u t ih =>
    obtain ⟨hu, hat⟩ := hasAt_cons.1 hat
    have hrest := ih hat fun v hv => hall v (List.mem_cons_of_mem _ hv)
    rw [Nat.add_right_comm] at hrest
    exact .space hu (hall u List.mem_cons_self) hrest

theorem RunAt.two_le (h : s.RunAt (· != CodeUnit.newline) i w) (hc : s.hasAt i "//" = true) :
    2 ≤ w.length := by
  have hle : (Text.ofString "//").length ≤ w.length :=
    run_le h.stop hc (List.all_eq_true.1 (by decide))
  exact hle

theorem RunAt.commentAt (h : s.RunAt (· != CodeUnit.newline) i w) (hc : s.hasAt i "//" = true)
    (hi : i ≤ s.length) : s.CommentAt i (i + w.length) where
  slashes := hc
  le := Nat.add_le_add_left (h.two_le hc) i
  inside k hk hlt := by
    obtain ⟨k, rfl⟩ := Nat.exists_eq_add_of_le hk
    have hlen : k < w.length := by omega
    rw [unit?_of_hasAt h.hasAt hlen, ne_eq, Option.some.injEq]
    exact bne_iff_ne.1 (h.all _ (List.getElem_mem hlen))
  ends := by
    have hle := add_length_le h.hasAt hi
    have hstop := h.stop
    cases hu : s.unit? (i + w.length) with
    | none => exact .inl (Nat.le_antisymm hle (length_le_of_unit? hu))
    | some u =>
      rw [hu, Option.any_some, bne_eq_false_iff_eq] at hstop
      exact .inr (hstop ▸ rfl)

theorem SkipsIn.triviaAt (h : s.SkipsIn i n j) (hi : i ≤ s.length) :
    s.TriviaAt i j ∧ s.NoTriviaAt j := by
  induction h with
  | last ht hc => exact ⟨triviaAt_of_spaces ht.hasAt ht.all, ht.stop, hc⟩
  | round ht hc hw _ ih =>
    have hspaces := triviaAt_of_spaces ht.hasAt ht.all
    have hcomment := hw.commentAt hc (hspaces.bounds hi).2
    have hround := hspaces.trans (.comment hcomment (.refl _))
    obtain ⟨hrest, hno⟩ := ih (hround.bounds hi).2
    exact ⟨hround.trans hrest, hno⟩

theorem SkipsIn.unique (h : s.SkipsIn i n j) (h' : s.SkipsIn i m k) : m = n ∧ k = j := by
  induction h generalizing m with
  | last ht hc =>
    cases h' with
    | last ht' => exact ⟨rfl, by rw [ht.unique ht']⟩
    | round ht' hc' =>
      rw [ht.unique ht', hc'] at hc
      cases hc
  | round ht hc hw _ ih =>
    cases h' with
    | last ht' hc' =>
      rw [← ht.unique ht', hc] at hc'
      cases hc'
    | round ht' _ hw' h' =>
      obtain rfl := ht.unique ht'
      obtain rfl := hw.unique hw'
      obtain ⟨rfl, rfl⟩ := ih h'
      exact ⟨rfl, rfl⟩

/-- The loop comes to an end: every round but the last takes the two slashes of a comment. -/
theorem exists_skipsIn (hi : i ≤ s.length) :
    ∃ n j, n ≤ (s.length - i) / 2 + 1 ∧ s.SkipsIn i n j := by
  induction hl : s.length - i using Nat.strongRecOn generalizing i with
  | ind l ih =>
    obtain ⟨t, ht⟩ := exists_runAt CodeUnit.isSpace hi
    have hspace := add_length_le ht.hasAt hi
    cases hc : s.hasAt (i + t.length) "//" with
    | false => exact ⟨1, _, Nat.le_add_left 1 _, .last ht hc⟩
    | true =>
      obtain ⟨w, hw⟩ := exists_runAt (· != CodeUnit.newline) hspace
      have htwo := hw.two_le hc
      have hle := add_length_le hw.hasAt hspace
      obtain ⟨n, j, hn, h⟩ := ih _ (by omega) hle rfl
      exact ⟨n + 1, j, by omega, .round ht hc hw h⟩

end Source

namespace Parser

variable {s : Source} {c : Cursor}

/-- Skipping stops at the one place up to which the text splits into white space and comments and
where neither of them goes on. From there, and from every boundary between pieces, skipping ends at
the same place. The loop that does it ends, after one round more than there may be comments. -/
theorem trivia_exact (hc : c.offset ≤ s.length) :
    ∃ e starts, trivia s c = .ok ⟨e, c.depth⟩ () ∧
      s.PiecesAt c.offset starts e ∧ s.NoTriviaAt e ∧
      (∀ others j, s.PiecesAt c.offset others j → s.NoTriviaAt j → others = starts ∧ j = e) ∧
      trivia s ⟨e, c.depth⟩ = .ok ⟨e, c.depth⟩ () ∧
      (∀ i ∈ starts ++ [e], trivia s ⟨i, c.depth⟩ = .ok ⟨e, c.depth⟩ ()) ∧
      ∃ n ≤ (s.length - c.offset) / 2 + 1, ∀ m j, s.SkipsIn c.offset m j ↔ m = n ∧ j = e := by
  have htrivia := s.triviaAt_skip hc
  have hno := s.noTriviaAt_skip hc
  obtain ⟨starts, hpieces⟩ := htrivia.exists_pieces
  obtain ⟨n, j, hn, hloop⟩ := s.exists_skipsIn hc
  obtain ⟨htrivia', hno'⟩ := hloop.triviaAt hc
  obtain rfl : j = s.skip c.offset := htrivia'.unique hno' htrivia hno
  have hfrom {i : Nat} (hi : i ∈ starts ++ [s.skip c.offset]) :
      trivia s ⟨i, c.depth⟩ = .ok ⟨s.skip c.offset, c.depth⟩ () := by
    obtain ⟨hbefore, hafter⟩ := hpieces.triviaAt_of_mem hi
    rw [trivia_eq_ok, hafter.skip_eq hno (hbefore.bounds hc).2]
  refine ⟨s.skip c.offset, starts, rfl, hpieces, hno,
    fun others j h hj => hpieces.unique hno h hj,
    hfrom (List.mem_append_right _ (List.mem_singleton_self _)), fun i hi => hfrom hi, n, hn,
    fun m k => ⟨hloop.unique, ?_⟩⟩
  rintro ⟨rfl, rfl⟩
  exact hloop

/-- A blank, a comment that neither a line separator nor more slashes end, a newline, and a comment
that the end of the source ends. -/
theorem trivia_exact_comments :
    (⟨0, 0⟩ : Cursor).offset ≤ (Source.ofText " // a\u2028//b\n//").length ∧
      ∃ starts, (Source.ofText " // a\u2028//b\n//").PiecesAt 0 starts 12 ∧
        ∀ i ∈ starts, trivia (.ofText " // a\u2028//b\n//") ⟨i, 0⟩ = .ok ⟨12, 0⟩ () := by
  have hstart : (⟨0, 0⟩ : Cursor).offset ≤ (Source.ofText " // a\u2028//b\n//").length :=
    Nat.zero_le _
  obtain ⟨e, starts, htrivia, hpieces, -, -, -, hfrom, -⟩ := trivia_exact hstart
  have hend : trivia (.ofText " // a\u2028//b\n//") ⟨0, 0⟩ = .ok ⟨12, 0⟩ () := by rfl
  cases htrivia.symm.trans hend
  exact ⟨hstart, starts, hpieces, fun i hi => hfrom i (List.mem_append_left _ hi)⟩

end Parser

end BrookSyntax
