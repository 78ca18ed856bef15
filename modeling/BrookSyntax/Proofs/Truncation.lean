import BrookSyntax.Proofs.Concatenation
import BrookSyntax.Proofs.PrintedTokens

namespace BrookSyntax

/-- Tokens of the kind can be written. -/
def TokenKind.Plain (kind : TokenKind) : Prop := kind.Lexical ∧ ∃ t, kind.Writes t

theorem TokenKind.exists_texts {kinds : List TokenKind} (h : ∀ kind ∈ kinds, kind.Plain) :
    ∃ texts, List.Forall₂ TokenKind.Writes kinds texts := by
  induction kinds with
  | nil => exact ⟨[], .nil⟩
  | cons kind kinds ih =>
    rw [List.forall_mem_cons] at h
    obtain ⟨⟨-, t, ht⟩, hs⟩ := h
    obtain ⟨texts, htexts⟩ := ih hs
    exact ⟨t :: texts, .cons ht htexts⟩

namespace Source

variable {s : Source} {i j m n q : Nat} {t v : Text} {ts us : List Token} {kinds : List TokenKind}

theorem hasAt_cut (hn : n ≤ s.length) (hi : i + t.length ≤ n) :
    (s.cut n).hasAt i t = s.hasAt i t := by
  have h := (copied_cut hn).hasAt (Nat.zero_le i) hi
  rwa [Nat.zero_add, Nat.sub_zero] at h

theorem LexedAfter.cut (h : s.LexedAfter i ts j) (hi : i ≤ s.length) (hj : j ≤ n)
    (hn : n ≤ s.length) : (s.cut n).LexedAfter i ts j := (copied_cut hn).lexedAfter_start h hj hi

theorem TriviaAt.cut (h : s.TriviaAt i j) (hj : j ≤ n) (hn : n ≤ s.length) :
    (s.cut n).TriviaAt i j := by
  apply (copied_cut hn).triviaAt_start h hj (.refl j)
  intro hend
  apply EndsLine.thenTrivia _ (.refl j)
  obtain rfl | hlt := Nat.eq_or_lt_of_le hj
  · exact .inl (length_cut hn).symm
  · have hcopy := (copied_cut hn).endsLine (Nat.zero_le j) hlt hend.endsLine
    rwa [Nat.zero_add, Nat.sub_zero] at hcopy

/-- A string is opened at an offset, with nothing but a part of its inside after the quote. With
more of it and a closing quote it has the value. -/
def OpensString (s : Source) (i : Nat) (v : Text) : Prop :=
  ∃ a b, s.hasAt i (CodeUnit.quote :: a) ∧ i + (CodeUnit.quote :: a).length = s.length ∧
    Spells (a ++ b) v

/-- At the end of the source, or in a string that is open there, tokens of some kinds can be
written. -/
inductive Awaits (s : Source) : Nat → List TokenKind → Prop where
  | tokens {kinds : List TokenKind} (hk : ∀ kind ∈ kinds, kind.Plain) : Awaits s s.length kinds
  | string {i : Nat} {v : Text} {kinds : List TokenKind} (h : s.OpensString i v)
      (hk : ∀ kind ∈ kinds, kind.Plain) : Awaits s i (.string v :: kinds)

/-- Tokens stand from an offset on, and more tokens of some kinds can be written after them. -/
def Extends (s : Source) (i : Nat) (ts : List Token) (kinds : List TokenKind) : Prop :=
  ∃ m q, s.LexedAfter i ts m ∧ s.TriviaAt m q ∧ s.Awaits q kinds

theorem Awaits.append {kinds' : List TokenKind} (h : s.Awaits i kinds)
    (hk' : ∀ kind ∈ kinds', kind.Plain) : s.Awaits i (kinds ++ kinds') := by
  cases h with
  | tokens hk => exact .tokens (List.forall_mem_append.2 ⟨hk, hk'⟩)
  | string ho hk => exact .string ho (List.forall_mem_append.2 ⟨hk, hk'⟩)

namespace Extends

theorem after_trivia (ht : s.TriviaAt i j) (h : s.Extends j ts kinds) : s.Extends i ts kinds := by
  obtain ⟨m, q, hl, hq, ha⟩ := h
  obtain ⟨k, hl, hk⟩ := hl.within_trivia ht hq
  exact ⟨k, q, hl, hk, ha⟩

theorem after_tokens (hl : s.LexedAfter i us j) (h : s.Extends j ts kinds) :
    s.Extends i (us ++ ts) kinds := by
  obtain ⟨m, q, hl', hq, ha⟩ := h
  exact ⟨m, q, hl.append hl', hq, ha⟩

theorem append {kinds' : List TokenKind} (h : s.Extends i ts kinds)
    (hk : ∀ kind ∈ kinds', kind.Plain) : s.Extends i ts (kinds ++ kinds') := by
  obtain ⟨m, q, hl, hq, ha⟩ := h
  exact ⟨m, q, hl, hq, ha.append hk⟩

/-- What is no trivia is how the first of the tokens starts, one that stands there or one to be
written. -/
theorem starts {u : CodeUnit} (h : s.Extends i ts kinds) (hi : i ≤ s.length)
    (hu : s.unit? i = some u) (hn : s.NoTriviaAt i) :
    ∃ kind rest, ts.map Token.kind ++ kinds = kind :: rest ∧ kind.Starts u := by
  obtain ⟨m, q, hl, hq, ha⟩ := h
  cases ts with
  | nil =>
    obtain rfl := hl.of_nil
    obtain rfl : i = q := by
      cases hq with
      | refl => rfl
      | space hu' hs _ =>
        have hspace := hn.space
        rw [hu', Option.any_some, hs] at hspace
        cases hspace
      | comment hc _ =>
        have hcomment := hn.comment
        rw [hc.slashes] at hcomment
        cases hcomment
    cases ha with
    | tokens hk => exact absurd (lt_length_of_unit? hu) (Nat.lt_irrefl _)
    | string ho hk =>
      obtain ⟨a, b, hat, -, -⟩ := ho
      rw [(hasAt_cons.1 hat).1, Option.some.injEq] at hu
      exact ⟨_, _, rfl, hu.symm⟩
  | cons t ts =>
    exact ⟨_, _, rfl, hl.starts hi hu hn⟩

end Extends

section Completion

theorem hasAt_of_drop (h : s.text.drop i = t) : s.hasAt i t = true :=
  (hasAt_iff s i t).2 ⟨[], (List.append_nil t).trans h.symm⟩

/-- After trivia at the end of a text, any tokens can be written on a line of their own. -/
theorem exists_line (hl : (ofText t).LexedAfter 0 ts m) (ht : (ofText t).TriviaAt m t.length)
    (hk : ∀ kind ∈ kinds, kind.Plain) :
    ∃ rest us k, us.map Token.kind = kinds ∧ (ofText (t ++ rest)).LexedAfter 0 (ts ++ us) k ∧
      (ofText (t ++ rest)).TriviaAt k (t ++ rest).length := by
  obtain ⟨texts, htexts⟩ := TokenKind.exists_texts hk
  let line := Text.join [CodeUnit.space] texts
  have hlength : (t ++ CodeUnit.newline :: line).length = t.length + 1 + line.length := by
    rw [List.length_append, List.length_cons]
    omega
  have hat : (ofText (t ++ CodeUnit.newline :: line)).hasAt (t.length + 1) line = true :=
    hasAt_of_drop (List.drop_length_add_append ..)
  have hend : t.length + 1 + line.length = (ofText (t ++ CodeUnit.newline :: line)).length := by
    rw [length_ofText, hlength]
  obtain ⟨us, hus, hl'⟩ := lexedAfter_of_texts htexts (fun kind hm => (hk kind hm).1) hat hend
  rw [length_ofText] at hl'
  obtain ⟨k, hl', ht'⟩ := hl'.within_trivia (ht.before_lines t line) (.refl _)
  exact ⟨CodeUnit.newline :: line, us, k, hus, (hl.before_lines t line (Nat.zero_le _)).append hl',
    ht'⟩

theorem exists_closing (hl : (ofText t).LexedAfter 0 ts m) (ht : (ofText t).TriviaAt m q)
    (ho : (ofText t).OpensString q v) :
    ∃ rest a, (ofText (t ++ rest)).LexedAfter 0 (ts ++ [⟨.string v, a⟩]) (t ++ rest).length := by
  obtain ⟨a, b, hat, hlen, hv⟩ := ho
  have hm := (hl.bounds (Nat.zero_le _)).2
  have hmq := (ht.bounds hm).1
  obtain ⟨hquote, -⟩ := hasAt_cons.1 hat
  have hq := Nat.le_of_lt (lt_length_of_unit? hquote)
  rw [length_ofText] at hq hlen
  -- The units before the quote, the string opened by it and what closes it.
  have htext : t = t.take q ++ CodeUnit.quote :: a := by
    have hdrop := (hasAt_iff _ _ _).1 hat
    rw [drop] at hdrop
    have heq := hdrop.eq_of_length (by
      change _ = (t.drop q).length
      rw [List.length_drop]
      omega)
    conv => lhs; rw [← List.take_append_drop q t]
    exact congrArg (t.take q ++ ·) heq.symm
  have hrest : t ++ (b ++ [CodeUnit.quote]) =
      t.take q ++ (CodeUnit.quote :: (a ++ b) ++ [CodeUnit.quote]) := by
    conv => lhs; rw [htext]
    simp only [List.append_assoc, List.cons_append]
  have htake : (t.take q).length = q := by rw [List.length_take, Nat.min_eq_left hq]
  have hcopied : (ofText t).Copied (ofText (t ++ (b ++ [CodeUnit.quote]))) 0 q 0 := by
    rw [hrest]
    exact (ofText t).copied_take (by rwa [length_ofText]) rfl
  have htrivia : (ofText (t ++ (b ++ [CodeUnit.quote]))).TriviaAt m q := by
    apply hcopied.triviaAt_start ht (Nat.le_refl q) (.refl q)
    intro hcomment
    obtain hend | hend := hcomment.endsLine
    · rw [hend] at hquote
      exact absurd (lt_length_of_unit? hquote) (Nat.lt_irrefl _)
    · rw [hquote, Option.some.injEq] at hend
      exact absurd hend (by decide)
  have htoken : (ofText (t ++ (b ++ [CodeUnit.quote]))).TokenAt q (.string v)
      (t ++ (b ++ [CodeUnit.quote])).length := by
    refine ⟨CodeUnit.quote :: (a ++ b) ++ [CodeUnit.quote], ⟨a ++ b, hv, rfl⟩, ?_, ?_, trivial⟩
    · apply hasAt_of_drop
      change (t ++ (b ++ [CodeUnit.quote])).drop q = _
      rw [hrest, List.drop_left' htake]
    · rw [hrest, List.length_append, htake]
  have hstring := LexedAt.single htoken
  exact ⟨b ++ [CodeUnit.quote], _,
    (hcopied.lexedAfter_start hl hmq (Nat.zero_le _)).append (.inr ⟨q, htrivia, hstring⟩)⟩

/-- The tokens of a text that can be extended are followed by others, of the kinds that are asked
for, in a longer text. -/
theorem Extends.complete (h : (ofText t).Extends 0 ts kinds) :
    ∃ rest us k, us.map Token.kind = kinds ∧ (ofText (t ++ rest)).LexedAfter 0 (ts ++ us) k ∧
      (ofText (t ++ rest)).TriviaAt k (t ++ rest).length := by
  obtain ⟨m, q, hl, ht, ha⟩ := h
  cases ha with
  | tokens hk =>
    rw [length_ofText] at ht
    exact exists_line hl ht hk
  | @string _ v kinds ho hk =>
    obtain ⟨rest, a, hl⟩ := exists_closing hl ht ho
    obtain ⟨rest', us, k, rfl, hl, ht⟩ := exists_line hl (.refl _) hk
    rw [List.append_assoc] at hl ht
    rw [List.append_assoc] at hl
    exact ⟨rest ++ rest', _, k, rfl, hl, ht⟩

end Completion

end Source

end BrookSyntax
