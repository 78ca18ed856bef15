import BrookSyntax.Proofs.Respan
import BrookSyntax.Proofs.Scanning

namespace BrookSyntax

/-- The unit is white space, a quote or a semicolon: no token goes on with it, but for a string. -/
def CodeUnit.isBreak (u : CodeUnit) : Bool := u.isSpace || u == quote || u == of ';'

theorem CodeUnit.isBreak_bounds {u : CodeUnit} (h : u.isBreak = true) :
    9 ≤ u.toNat ∧ u.toNat ≤ 34 ∨ u.toNat = 59 ∨ 160 ≤ u.toNat := by
  rw [isBreak, Bool.or_eq_true, Bool.or_eq_true, beq_iff_eq, beq_iff_eq] at h
  obtain (hs | rfl) | rfl := h
  · have hspace := isSpace_bounds hs
    omega
  · exact .inl (by decide)
  · exact .inr (.inl rfl)

theorem CodeUnit.isBreak_of_space {u : CodeUnit} (h : u.isSpace = true) : u.isBreak = true := by
  rw [isBreak, h, Bool.true_or, Bool.true_or]

theorem CodeUnit.not_break_of_digit {u : CodeUnit} (h : u.isDigit = true) : u.isBreak = false := by
  rw [Bool.eq_false_iff]
  intro hs
  have hdigit := (isDigit_iff u).1 h
  have hbreak := isBreak_bounds hs
  omega

theorem CodeUnit.not_wordPart_of_break {u : CodeUnit} (h : u.isBreak = true) :
    u.isWordPart = false := by
  have hbreak := isBreak_bounds h
  rw [isWordPart, Bool.or_eq_false_iff, Bool.eq_false_iff, Bool.eq_false_iff, Ne, Ne,
    isWordStart_iff, isDigit_iff]
  omega

theorem IsNumeral.not_break {t : Text} (h : IsNumeral t) : ∀ u ∈ t, u.isBreak = false := by
  have digits {t : Text} (h : IsDigits t) : ∀ u ∈ t, u.isBreak = false :=
    fun u hu => CodeUnit.not_break_of_digit (h.2 u hu)
  cases h with
  | whole h => exact digits h
  | decimal ht hu =>
    rw [List.forall_mem_append, List.forall_mem_cons]
    exact ⟨digits ht, rfl, digits hu⟩

theorem not_break_of_all {t : Text} (h : t.all (fun u => !u.isBreak) = true) :
    ∀ u ∈ t, u.isBreak = false := by
  simpa using h

theorem marks_not_break {m : Text} (h : m ∈ marks) : ∀ u ∈ m.tail, u.isBreak = false := by
  have hall : ∀ m ∈ marks, m.tail.all (fun u => !u.isBreak) = true := by decide
  exact not_break_of_all (hall m h)

namespace Source

/-- The trivia between two offsets ends in a comment. -/
def EndsInComment (s : Source) (i j : Nat) : Prop := ∃ k, s.TriviaAt i k ∧ s.CommentAt k j

theorem EndsInComment.endsLine {s : Source} {i j : Nat} (h : s.EndsInComment i j) :
    s.EndsLine j := by
  obtain ⟨k, -, hc⟩ := h
  exact hc.ends

theorem TriviaAt.lineThenTrivia {s : Source} {i j : Nat} (h : s.TriviaAt i j) (hj : s.EndsLine j) :
    s.LineThenTrivia i j := by
  induction h with
  | refl i => exact hj.thenTrivia (.refl i)
  | @space i j u hu hs ht ih =>
    by_cases hn : u = CodeUnit.newline
    · exact EndsLine.thenTrivia (.inr (hn ▸ hu)) (.space hu hs ht)
    · exact (ih hj).cons hu hn
  | @comment i k j hc ht ih =>
    exact ⟨k, Nat.le_trans (Nat.le_add_right i 2) hc.le, hc.inside, hc.ends, ht⟩

/-- The units of a source from `lo` to `hi` stand in another source from `base` on, with white
space, a quote, a semicolon or the end after them. -/
structure Copied (s s' : Source) (lo hi base : Nat) : Prop where
  le_length : hi ≤ s.length
  unit : ∀ i, lo ≤ i → i < hi → s'.unit? (base + (i - lo)) = s.unit? i
  stop : (s'.unit? (base + (hi - lo))).all CodeUnit.isBreak = true

namespace Copied

variable {s s' : Source} {lo hi base i j k : Nat} {t : Text} {kind : TokenKind} {ts : List Token}

/-- What stands in two texts is copied from one to the other, whatever comes before it, and where
white space, a quote, a semicolon or nothing comes after it in the other. -/
theorem of_texts (pre mid post pre' post' : Text) (hs : s.text = pre ++ (mid ++ post))
    (hs' : s'.text = pre' ++ (mid ++ post')) (hstop : post'.head?.all CodeUnit.isBreak = true) :
    s.Copied s' pre.length (pre.length + mid.length) pre'.length where
  le_length := by
    rw [length_eq, hs, List.length_append, List.length_append]
    omega
  unit i hlo hhi := by
    have hmid : i - pre.length < mid.length := by omega
    rw [unit?_eq, unit?_eq, hs, hs', List.getElem?_append_right (Nat.le_add_right _ _),
      Nat.add_sub_cancel_left, List.getElem?_append_right hlo, List.getElem?_append_left hmid,
      List.getElem?_append_left hmid]
  stop := by
    rw [unit?_eq, hs', List.getElem?_append_right (Nat.le_add_right _ _), Nat.add_sub_cancel_left,
      Nat.add_sub_cancel_left, List.getElem?_append_right (Nat.le_refl _), Nat.sub_self,
      ← List.head?_eq_getElem?]
    exact hstop

theorem hasAt (h : s.Copied s' lo hi base) (hlo : lo ≤ i) (hhi : i + t.length ≤ hi) :
    s'.hasAt (base + (i - lo)) t = s.hasAt i t := by
  induction t generalizing i with
  | nil => rfl
  | cons u t ih =>
    rw [List.length_cons] at hhi
    have hstep : base + (i - lo) + 1 = base + (i + 1 - lo) := by omega
    rw [Source.hasAt, Source.hasAt, h.unit i hlo (by omega), hstep, ih (by omega) (by omega)]

/-- A text that stands in the copy and that nothing interrupts does not go on beyond it. -/
theorem le_of_hasAt (h : s.Copied s' lo hi base) (hlo : lo ≤ i) (hhi : i ≤ hi)
    (ht : ∀ u ∈ t, u.isBreak = false) (hat : s'.hasAt (base + (i - lo)) t = true) :
    i + t.length ≤ hi := by
  induction t generalizing i with
  | nil => exact hhi
  | cons u t ih =>
    rw [List.forall_mem_cons] at ht
    obtain ⟨hu, hat⟩ := hasAt_cons.1 hat
    have hstep : base + (i - lo) + 1 = base + (i + 1 - lo) := by omega
    have hlt : i < hi := by
      apply Nat.lt_of_le_of_ne hhi
      rintro rfl
      have hstop := h.stop
      rw [hu, Option.all_some, ht.1] at hstop
      cases hstop
    rw [hstep] at hat
    have := ih (by omega) hlt ht.2 hat
    rw [List.length_cons]
    omega

theorem le_of_hasAt_tail (h : s.Copied s' lo hi base) (hlo : lo ≤ i) (hhi : i < hi)
    (ht : ∀ u ∈ t.tail, u.isBreak = false) (hat : s'.hasAt (base + (i - lo)) t = true) :
    i + t.length ≤ hi := by
  cases t with
  | nil => exact Nat.le_of_lt hhi
  | cons u t =>
    have hstep : base + (i - lo) + 1 = base + (i + 1 - lo) := by omega
    obtain ⟨-, hat⟩ := hasAt_cons.1 hat
    rw [hstep] at hat
    have hle : i + 1 + t.length ≤ hi := h.le_of_hasAt (by omega) hhi ht hat
    rw [List.length_cons]
    omega

/-- What no word goes on with stands in the copy too, or comes after it. -/
theorem not_wordPart (h : s.Copied s' lo hi base) (hlo : lo ≤ j) (hhi : j ≤ hi)
    (hj : (s.unit? j).any CodeUnit.isWordPart = false) :
    (s'.unit? (base + (j - lo))).any CodeUnit.isWordPart = false := by
  obtain rfl | hlt := Nat.eq_or_lt_of_le hhi
  · have hstop := h.stop
    cases hu : s'.unit? (base + (j - lo)) with
    | none => rfl
    | some u =>
      rw [hu, Option.all_some] at hstop
      exact CodeUnit.not_wordPart_of_break hstop
  · rwa [h.unit j hlo hlt]

theorem tokenAt (h : s.Copied s' lo hi base) (ht : s.TokenAt i kind j) (hlo : lo ≤ i)
    (hhi : j ≤ hi) : s'.TokenAt (base + (i - lo)) kind (base + (j - lo)) := by
  obtain ⟨t, htext, hat, rfl, hend⟩ := ht
  have hlt : i < hi := by
    obtain ⟨u, rest, rfl, -⟩ := htext.first
    rw [List.length_cons] at hhi
    omega
  -- What goes on too far in the copy would do so in the original.
  have hback {m : Text} (hm : ∀ u ∈ m.tail, u.isBreak = false)
      (hat' : s'.hasAt (base + (i - lo)) m = true) : s.hasAt i m = true := by
    have hle := h.le_of_hasAt_tail hlo hlt hm hat'
    rwa [h.hasAt hlo hle] at hat'
  have hsum : base + (i + t.length - lo) = base + (i - lo) + t.length := by omega
  refine ⟨t, htext, by rwa [h.hasAt hlo hhi], hsum, ?_⟩
  cases kind with
  | keyword w | name w => exact h.not_wordPart (by omega) hhi hend
  | mark m =>
    obtain ⟨hlong, hcomment⟩ := hend
    constructor
    · intro m' hm' hat'
      have := hlong m' hm' (hback (marks_not_break hm') hat')
      omega
    · rw [Bool.eq_false_iff]
      intro hslashes
      rw [hback (not_break_of_all (by decide)) hslashes] at hcomment
      cases hcomment
  | number x =>
    intro t' ht' hat'
    have hbreak := fun u hu => ht'.not_break u (List.mem_of_mem_tail hu)
    have := hend t' ht' (hback hbreak hat')
    omega
  | string v => trivial

theorem endsLine (h : s.Copied s' lo hi base) (hlo : lo ≤ i) (hhi : i < hi) (hend : s.EndsLine i) :
    s'.EndsLine (base + (i - lo)) := by
  obtain rfl | hu := hend
  · exact absurd h.le_length (Nat.not_le_of_lt hhi)
  · exact .inr (by rwa [h.unit i hlo hhi])

theorem commentAt (h : s.Copied s' lo hi base) (hc : s.CommentAt i j) (hlo : lo ≤ i) (hhi : j ≤ hi)
    (hk : base + (j - lo) ≤ k)
    (hline : ∀ l, base + (j - lo) ≤ l → l < k → s'.unit? l ≠ some CodeUnit.newline)
    (hend : s'.EndsLine k) : s'.CommentAt (base + (i - lo)) k := by
  have hle := hc.le
  refine ⟨?_, by omega, fun l hl hl' => ?_, hend⟩
  · have hslashes : (Text.ofString "//").length = 2 := rfl
    rw [h.hasAt hlo (by omega)]
    exact hc.slashes
  · by_cases hlj : l < base + (j - lo)
    · have hcopy := h.unit (lo + (l - base)) (by omega) (by omega)
      rw [show base + (lo + (l - base) - lo) = l by omega] at hcopy
      rw [hcopy]
      exact hc.inside _ (by omega) (by omega)
    · exact hline l (Nat.le_of_not_lt hlj) hl'

/-- Trivia is copied and goes on with what is trivia after the copy, also behind the line that a
comment at its end is in. -/
theorem triviaAt (h : s.Copied s' lo hi base) (ht : s.TriviaAt i j) (hlo : lo ≤ i) (hhi : j ≤ hi)
    (hrest : s'.TriviaAt (base + (j - lo)) k)
    (hline : s.EndsInComment i j → s'.LineThenTrivia (base + (j - lo)) k) :
    s'.TriviaAt (base + (i - lo)) k := by
  induction ht with
  | refl i => exact hrest
  | @space i j u hu hs ht ih =>
    have hij := (ht.bounds (lt_length_of_unit? hu)).1
    have hstep : base + (i - lo) + 1 = base + (i + 1 - lo) := by omega
    refine .space (u := u) ?_ hs ?_
    · rwa [h.unit i hlo (by omega)]
    · rw [hstep]
      apply ih (by omega) hhi hrest
      rintro ⟨l, hl, hc⟩
      exact hline ⟨l, .space hu hs hl, hc⟩
  | @comment i m j hc ht ih =>
    have hle := hc.le
    have hm : m ≤ s.length := by
      obtain he | he := hc.ends
      · exact Nat.le_of_eq he
      · exact Nat.le_of_lt (lt_length_of_unit? he)
    have hmj := (ht.bounds hm).1
    obtain rfl | hlt := Nat.eq_or_lt_of_le hmj
    · obtain ⟨l, hl, hinside, hend, hrest⟩ := hline ⟨i, .refl i, hc⟩
      exact .comment (h.commentAt hc hlo hhi hl hinside hend) hrest
    · have hend := h.endsLine (by omega) (by omega) hc.ends
      have hcomment := h.commentAt hc hlo (by omega) (Nat.le_refl _)
        (fun l hl hl' => absurd hl (Nat.not_le_of_lt hl')) hend
      apply TriviaAt.comment hcomment
      apply ih (by omega) hhi hrest
      rintro ⟨l, hl, hc'⟩
      exact hline ⟨l, .comment hc hl, hc'⟩

theorem triviaAt_start (h : s.Copied s' 0 hi 0) (ht : s.TriviaAt i j) (hhi : j ≤ hi)
    (hrest : s'.TriviaAt j k) (hline : s.EndsInComment i j → s'.LineThenTrivia j k) :
    s'.TriviaAt i k := by
  have hcopy := h.triviaAt (k := k) ht (Nat.zero_le i) hhi
  rw [Nat.zero_add, Nat.sub_zero, Nat.zero_add, Nat.sub_zero] at hcopy
  exact hcopy hrest hline

theorem triviaAt_inside (h : s.Copied s' lo hi base) (ht : s.TriviaAt i j) (hlo : lo ≤ i)
    (hhi : j < hi) (hlen : i ≤ s.length) :
    s'.TriviaAt (base + (i - lo)) (base + (j - lo)) := by
  have hij := (ht.bounds hlen).1
  exact h.triviaAt ht hlo (Nat.le_of_lt hhi) (.refl _) fun hend =>
    (h.endsLine (by omega) hhi hend.endsLine).thenTrivia (.refl _)

theorem lexedAt (h : s.Copied s' lo hi base) {g : Span → Span}
    (hg : ∀ i j, lo ≤ i → i < j → j ≤ hi → g ⟨s.position i, s.position j⟩ =
      ⟨s'.position (base + (i - lo)), s'.position (base + (j - lo))⟩)
    (hl : s.LexedAt i ts j) (hlo : lo ≤ i) (hhi : j ≤ hi) (hlen : i ≤ s.length) :
    s'.LexedAt (base + (i - lo)) (ts.map (Token.mapSpan g)) (base + (j - lo)) := by
  induction hl with
  | @single i j kind ht =>
    have hij := (ht.bounds hlen).1
    rw [List.map_singleton, Token.mapSpan, hg i j hlo hij hhi]
    exact .single (h.tokenAt ht hlo hhi)
  | @cons i j k l kind ts ht htrivia hs ih =>
    obtain ⟨hij, hjlen⟩ := ht.bounds hlen
    obtain ⟨hjk, hklen⟩ := htrivia.bounds hjlen
    have hkl := (hs.bounds hklen).1
    have hcopy := h.triviaAt_inside htrivia (by omega) (by omega) hjlen
    rw [List.map_cons, Token.mapSpan, hg i j hlo hij (by omega)]
    exact .cons (h.tokenAt ht hlo (by omega)) hcopy (ih (by omega) hhi hklen)

theorem lexedAfter (h : s.Copied s' lo hi base) {g : Span → Span}
    (hg : ∀ i j, lo ≤ i → i < j → j ≤ hi → g ⟨s.position i, s.position j⟩ =
      ⟨s'.position (base + (i - lo)), s'.position (base + (j - lo))⟩)
    (hl : s.LexedAfter i ts j) (hlo : lo ≤ i) (hhi : j ≤ hi) (hlen : i ≤ s.length) :
    s'.LexedAfter (base + (i - lo)) (ts.map (Token.mapSpan g)) (base + (j - lo)) := by
  obtain ⟨rfl, rfl⟩ | ⟨m, ht, hl⟩ := hl
  · exact .inl ⟨rfl, rfl⟩
  · obtain ⟨him, hm⟩ := ht.bounds hlen
    have hmj := (hl.bounds hm).1
    exact .inr ⟨_, h.triviaAt_inside ht hlo (by omega) hlen, h.lexedAt hg hl (by omega) hhi hm⟩

theorem position (h : s.Copied s' 0 hi 0) (hi' : i ≤ hi) : s'.position i = s.position i := by
  have htake : s'.text.take i = s.text.take i := by
    apply List.ext_getElem?
    intro k
    by_cases hk : k < i
    · have hunit := h.unit k (Nat.zero_le _) (by omega)
      rw [Nat.zero_add, Nat.sub_zero, unit?_eq, unit?_eq] at hunit
      rw [List.getElem?_take_of_lt hk, List.getElem?_take_of_lt hk, hunit]
    · rw [List.getElem?_take_eq_none (Nat.le_of_not_lt hk),
        List.getElem?_take_eq_none (Nat.le_of_not_lt hk)]
  rw [position_eq, position_eq, htake]

theorem lexedAt_start (h : s.Copied s' 0 hi 0) (hl : s.LexedAt i ts j) (hhi : j ≤ hi)
    (hlen : i ≤ s.length) : s'.LexedAt i ts j := by
  have hcopy := h.lexedAt (g := id) (fun x y _ hxy hy => ?_) hl (Nat.zero_le _) hhi hlen
  · have hid : ts.map (Token.mapSpan id) = ts := List.map_id' _
    simpa only [Nat.zero_add, Nat.sub_zero, hid] using hcopy
  · rw [Nat.zero_add, Nat.zero_add, Nat.sub_zero, Nat.sub_zero, h.position (by omega),
      h.position hy]
    rfl

theorem lexedAfter_start (h : s.Copied s' 0 hi 0) (hl : s.LexedAfter i ts j) (hhi : j ≤ hi)
    (hlen : i ≤ s.length) : s'.LexedAfter i ts j := by
  obtain ⟨rfl, rfl⟩ | ⟨m, ht, hl⟩ := hl
  · exact .inl ⟨rfl, rfl⟩
  · have hm := (ht.bounds hlen).2
    have hmj := (hl.bounds hm).1
    have hcopy := h.triviaAt_inside ht (Nat.zero_le i) (by omega) hlen
    rw [Nat.zero_add, Nat.zero_add, Nat.sub_zero, Nat.sub_zero] at hcopy
    exact .inr ⟨m, hcopy, h.lexedAt_start hl hhi hm⟩

end Copied

theorem copied_take (s : Source) {i : Nat} {rest : Text} (hi : i ≤ s.length)
    (hrest : rest.head?.all CodeUnit.isBreak = true) :
    s.Copied (ofText (s.text.take i ++ rest)) 0 i 0 := by
  have h : s.Copied (ofText (s.text.take i ++ rest)) _ _ _ :=
    .of_texts [] (s.text.take i) (s.text.drop i) [] rest (List.take_append_drop i s.text).symm rfl
      hrest
  rw [length_eq] at hi
  rwa [List.length_take, Nat.min_eq_left hi, List.length_nil, Nat.zero_add] at h

/-- The source up to an offset. -/
def cut (s : Source) (n : Nat) : Source := ofText (s.text.take n)

theorem length_cut {s : Source} {n : Nat} (hn : n ≤ s.length) : (s.cut n).length = n := by
  rw [length_eq] at hn
  rw [cut, length_ofText, List.length_take, Nat.min_eq_left hn]

theorem copied_cut {s : Source} {n : Nat} (hn : n ≤ s.length) : s.Copied (s.cut n) 0 n 0 := by
  have h : s.Copied (ofText (s.text.take n ++ [])) 0 n 0 := s.copied_take hn rfl
  rwa [List.append_nil] at h

theorem hasAt_take_append (s : Source) {i : Nat} (hi : i ≤ s.length) (t rest : Text) :
    (ofText (s.text.take i ++ (t ++ rest))).hasAt i t = true := by
  rw [length_eq] at hi
  have htake : (s.text.take i).length = i := by rw [List.length_take, Nat.min_eq_left hi]
  rw [hasAt_iff, drop]
  change t <+: (s.text.take i ++ (t ++ rest)).drop i
  rw [List.drop_left' htake]
  exact List.prefix_append _ _

theorem LexedAfter.within_trivia {s : Source} {i j k l : Nat} {ts : List Token}
    (hl : s.LexedAfter j ts k) (hi : s.TriviaAt i j) (hk : s.TriviaAt k l) :
    ∃ m, s.LexedAfter i ts m ∧ s.TriviaAt m l := by
  obtain ⟨rfl, rfl⟩ | ⟨m, ht, hl⟩ := hl
  · exact ⟨i, .inl ⟨rfl, rfl⟩, hi.trans hk⟩
  · exact ⟨k, .inr ⟨m, hi.trans ht, hl⟩, hk⟩

end Source

end BrookSyntax
