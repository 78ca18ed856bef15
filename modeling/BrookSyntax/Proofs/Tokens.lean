import BrookSyntax.Proofs.Success

namespace BrookSyntax

namespace CodeUnit

theorem isDigit_iff (u : CodeUnit) : u.isDigit = true ↔ 48 ≤ u.toNat ∧ u.toNat ≤ 57 := by
  have h0 : (of '0').toNat = 48 := rfl
  have h9 : (of '9').toNat = 57 := rfl
  simp only [isDigit, Bool.and_eq_true, decide_eq_true_eq, UInt16.le_iff_toNat_le, h0, h9]

theorem isWordStart_iff (u : CodeUnit) :
    u.isWordStart = true ↔
      (65 ≤ u.toNat ∧ u.toNat ≤ 90) ∨ (97 ≤ u.toNat ∧ u.toNat ≤ 122) ∨ u.toNat = 95 := by
  have hA : (of 'A').toNat = 65 := rfl
  have hZ : (of 'Z').toNat = 90 := rfl
  have ha : (of 'a').toNat = 97 := rfl
  have hz : (of 'z').toNat = 122 := rfl
  have hu : (of '_').toNat = 95 := rfl
  simp only [isWordStart, Bool.or_eq_true, Bool.and_eq_true, decide_eq_true_eq, beq_iff_eq,
    UInt16.le_iff_toNat_le, ← UInt16.toNat_inj, hA, hZ, ha, hz, hu, or_assoc]

theorem isSpace_bounds {u : CodeUnit} (h : u.isSpace = true) :
    9 ≤ u.toNat ∧ u.toNat ≤ 32 ∨ 160 ≤ u.toNat := by
  simp only [isSpace, Bool.or_eq_true, Bool.and_eq_true, decide_eq_true_eq, beq_iff_eq,
    UInt16.le_iff_toNat_le, ← UInt16.toNat_inj, UInt16.reduceToNat] at h
  omega

/-- Behind the slash and before the white space beyond ASCII, no unit starts trivia. -/
theorem no_trivia_of_bounds {u : CodeUnit} (hlo : 47 < u.toNat) (hhi : u.toNat < 160) :
    u.isSpace = false ∧ u ≠ of '/' := by
  constructor
  · cases hs : u.isSpace with
    | false => rfl
    | true =>
      have := isSpace_bounds hs
      omega
  · rintro rfl
    exact Nat.lt_irrefl 47 hlo

end CodeUnit

/-- What a token is: a reserved word, a name, a mark, a number or a string. -/
inductive TokenKind where
  | keyword (word : Text)
  | name (word : Text)
  | mark (text : Text)
  | number (value : Binary64)
  | string (value : Text)
deriving DecidableEq

/-- A token and where it stands. -/
structure Token where
  kind : TokenKind
  span : Span
deriving DecidableEq

/-- The marks that are not operators with two operands. -/
def punctuation : List Text := ["(", ")", "\x7b", "\x7d", ",", ";", "=", "!"]

/-- The marks of the language. -/
def marks : List Text := punctuation ++ BinaryOp.all.map BinaryOp.symbol

/-- A letter or an underscore, then letters, underscores and digits. -/
def IsWord (t : Text) : Prop :=
  (∃ u rest, t = u :: rest ∧ u.isWordStart) ∧ ∀ u ∈ t, u.isWordPart

/-- At least one digit and nothing else. -/
def IsDigits (t : Text) : Prop := t ≠ [] ∧ ∀ u ∈ t, u.isDigit

/-- Digits, and perhaps a point and more digits. -/
inductive IsNumeral : Text → Prop where
  | whole {t : Text} (h : IsDigits t) : IsNumeral t
  | decimal {t u : Text} (ht : IsDigits t) (hu : IsDigits u) :
      IsNumeral (t ++ CodeUnit.of '.' :: u)

/-- The inside of a string and the value that it writes. -/
inductive Spells : Text → Text → Prop where
  | nil : Spells [] []
  | plain {u : CodeUnit} {t v : Text} (hq : u ≠ CodeUnit.quote) (hb : u ≠ CodeUnit.backslash)
      (h : Spells t v) : Spells (u :: t) (u :: v)
  | escape {u w : CodeUnit} {t v : Text} (hu : escapeValue? u = some w) (h : Spells t v) :
      Spells (CodeUnit.backslash :: u :: t) (w :: v)

theorem Spells.length_le {t v : Text} (h : Spells t v) : v.length ≤ t.length := by
  induction h with
  | nil => exact Nat.le_refl 0
  | plain hq hb h ih => exact Nat.succ_le_succ ih
  | escape hu h ih => exact Nat.le_succ_of_le (Nat.succ_le_succ ih)

instance (t : Text) : Decidable (IsWord t) :=
  decidable_of_iff (t.head?.any CodeUnit.isWordStart = true ∧ t.all CodeUnit.isWordPart = true) (by
    cases t with
    | nil => simp [IsWord]
    | cons u rest => simp [IsWord])

theorem keywords_isWord {w : Text} (h : w ∈ keywords) : IsWord w := by
  revert w
  decide

theorem marks_first {m : Text} (h : m ∈ marks) :
    ∃ u rest, m = u :: rest ∧ u.isSpace = false := by
  have hall : ∀ m ∈ marks, m.head?.any (fun u => !u.isSpace) = true := by decide
  have hm := hall m h
  cases m with
  | nil => cases hm
  | cons u rest => exact ⟨u, rest, rfl, by simpa using hm⟩

/-- The text of a token of a kind. -/
def TokenKind.IsText : TokenKind → Text → Prop
  | keyword word, t => t = word ∧ word ∈ keywords
  | name word, t => t = word ∧ IsWord word ∧ word ∉ keywords
  | mark text, t => t = text ∧ text ∈ marks
  | number value, t => IsNumeral t ∧ Binary64.ofNumeral t = value ∧ value.isFinite
  | string value, t =>
    ∃ inside, Spells inside value ∧ t = CodeUnit.quote :: inside ++ [CodeUnit.quote]

theorem isDigits_cons {u : CodeUnit} {t : Text} :
    IsDigits (u :: t) ↔ u.isDigit = true ∧ ∀ v ∈ t, v.isDigit = true := by
  rw [IsDigits, and_iff_right (List.cons_ne_nil u t), List.forall_mem_cons]

theorem IsWord.first {t : Text} (h : IsWord t) :
    ∃ u rest, t = u :: rest ∧ u.isSpace = false ∧ u ≠ CodeUnit.of '/' := by
  obtain ⟨⟨u, rest, rfl, hu⟩, -⟩ := h
  have hbounds := (CodeUnit.isWordStart_iff u).1 hu
  exact ⟨u, rest, rfl, CodeUnit.no_trivia_of_bounds (by omega) (by omega)⟩

theorem IsDigits.first {t : Text} (h : IsDigits t) :
    ∃ u rest, t = u :: rest ∧ u.isSpace = false ∧ u ≠ CodeUnit.of '/' := by
  obtain ⟨u, rest, rfl⟩ := List.exists_cons_of_ne_nil h.1
  have hbounds := (CodeUnit.isDigit_iff u).1 (isDigits_cons.1 h).1
  exact ⟨u, rest, rfl, CodeUnit.no_trivia_of_bounds (by omega) (by omega)⟩

theorem IsNumeral.first {t : Text} (h : IsNumeral t) :
    ∃ u rest, t = u :: rest ∧ u.isSpace = false ∧ u ≠ CodeUnit.of '/' := by
  cases h with
  | whole ha => exact ha.first
  | @decimal a b ha hb =>
    obtain ⟨u, rest, rfl, hu⟩ := ha.first
    exact ⟨u, rest ++ CodeUnit.of '.' :: b, rfl, hu⟩

/-- A token starts with a unit that is no white space, and one that is no mark with no slash. -/
theorem TokenKind.IsText.first {kind : TokenKind} {t : Text} (h : kind.IsText t) :
    ∃ u rest, t = u :: rest ∧ u.isSpace = false ∧
      ((∃ m, kind = .mark m) ∨ u ≠ CodeUnit.of '/') := by
  cases kind with
  | keyword w =>
    obtain ⟨rfl, hw⟩ := h
    obtain ⟨u, rest, he, hs, hne⟩ := (keywords_isWord hw).first
    exact ⟨u, rest, he, hs, .inr hne⟩
  | name w =>
    obtain ⟨rfl, hw, -⟩ := h
    obtain ⟨u, rest, he, hs, hne⟩ := hw.first
    exact ⟨u, rest, he, hs, .inr hne⟩
  | mark m =>
    obtain ⟨rfl, hm⟩ := h
    obtain ⟨u, rest, he, hs⟩ := marks_first hm
    exact ⟨u, rest, he, hs, .inl ⟨t, rfl⟩⟩
  | number x =>
    obtain ⟨hn, -⟩ := h
    obtain ⟨u, rest, he, hs, hne⟩ := hn.first
    exact ⟨u, rest, he, hs, .inr hne⟩
  | string v =>
    obtain ⟨inside, -, rfl⟩ := h
    exact ⟨CodeUnit.quote, inside ++ [CodeUnit.quote], rfl, rfl, .inr (by decide)⟩

namespace Source

/-- A token of a kind that starts at `i` does not go on beyond `j`: no word goes on there, no longer
mark, numeral or comment starts at `i`. -/
def EndsAt (s : Source) (i j : Nat) : TokenKind → Prop
  | .keyword _ | .name _ => (s.unit? j).any CodeUnit.isWordPart = false
  | .mark _ => (∀ m ∈ marks, s.hasAt i m → i + m.length ≤ j) ∧ s.hasAt i "//" = false
  | .number _ => ∀ t, IsNumeral t → s.hasAt i t → i + t.length ≤ j
  | .string _ => True

/-- A token of a kind stands between two offsets. -/
def TokenAt (s : Source) (i : Nat) (kind : TokenKind) (j : Nat) : Prop :=
  ∃ t, kind.IsText t ∧ s.hasAt i t ∧ j = i + t.length ∧ s.EndsAt i j kind

/-- A comment stands between two offsets: two slashes, and all up to a newline or the end. -/
structure CommentAt (s : Source) (i j : Nat) : Prop where
  slashes : s.hasAt i "//"
  le : i + 2 ≤ j
  inside : ∀ k, i ≤ k → k < j → s.unit? k ≠ some CodeUnit.newline
  ends : j = s.length ∨ s.unit? j = some CodeUnit.newline

/-- Nothing but white space and comments stands between two offsets. -/
inductive TriviaAt (s : Source) : Nat → Nat → Prop where
  | refl (i : Nat) : TriviaAt s i i
  | space {i j : Nat} {u : CodeUnit} (hu : s.unit? i = some u) (hs : u.isSpace)
      (h : TriviaAt s (i + 1) j) : TriviaAt s i j
  | comment {i k j : Nat} (hc : s.CommentAt i k) (h : TriviaAt s k j) : TriviaAt s i j

/-- A line ends at an offset, or the source does. -/
def EndsLine (s : Source) (i : Nat) : Prop :=
  i = s.length ∨ s.unit? i = some CodeUnit.newline

/-- The line that goes on at an offset has its end, and trivia follows up to another offset. -/
def LineThenTrivia (s : Source) (i j : Nat) : Prop :=
  ∃ k, i ≤ k ∧ (∀ l, i ≤ l → l < k → s.unit? l ≠ some CodeUnit.newline) ∧ s.EndsLine k ∧
    s.TriviaAt k j

/-- Neither white space nor a comment starts at an offset. -/
structure NoTriviaAt (s : Source) (i : Nat) : Prop where
  space : (s.unit? i).any CodeUnit.isSpace = false
  comment : s.hasAt i "//" = false

/-- The tokens between two offsets, where the first one starts and the last one ends, with nothing
but trivia between neighbours. -/
inductive LexedAt (s : Source) : Nat → List Token → Nat → Prop where
  | single {i j : Nat} {kind : TokenKind} (h : s.TokenAt i kind j) :
      LexedAt s i [⟨kind, s.position i, s.position j⟩] j
  | cons {i j k l : Nat} {kind : TokenKind} {ts : List Token} (h : s.TokenAt i kind j)
      (ht : s.TriviaAt j k) (hs : LexedAt s k ts l) :
      LexedAt s i (⟨kind, s.position i, s.position j⟩ :: ts) l

/-- The tokens that follow an offset, each after the trivia before it. -/
def LexedAfter (s : Source) (i : Nat) (ts : List Token) (j : Nat) : Prop :=
  ts = [] ∧ i = j ∨ ∃ m, s.TriviaAt i m ∧ s.LexedAt m ts j

section Units

variable {s : Source} {i j : Nat} {u : CodeUnit} {t : Text}

theorem lt_length_of_unit? (h : s.unit? i = some u) : i < s.length := by
  rw [unit?_eq] at h
  obtain ⟨hi, -⟩ := List.getElem?_eq_some_iff.1 h
  rwa [length_eq]

theorem length_le_of_unit? (h : s.unit? i = none) : s.length ≤ i := by
  rw [unit?_eq, List.getElem?_eq_none_iff] at h
  rwa [length_eq]

theorem unit?_eq_none (h : s.length ≤ i) : s.unit? i = none := by
  rw [unit?_eq]
  rw [length_eq] at h
  exact List.getElem?_eq_none h

theorem hasAt_cons : s.hasAt i (u :: t) = true ↔ s.unit? i = some u ∧ s.hasAt (i + 1) t = true := by
  rw [hasAt, Bool.and_eq_true, beq_iff_eq]

theorem hasAt_append {a b : Text} :
    s.hasAt i (a ++ b) = true ↔ s.hasAt i a = true ∧ s.hasAt (i + a.length) b = true := by
  induction a generalizing i with
  | nil => simp [hasAt]
  | cons u a ih =>
    rw [List.cons_append, hasAt_cons, hasAt_cons, ih, and_assoc, List.length_cons,
      Nat.add_right_comm, Nat.add_assoc]

theorem add_length_le (h : s.hasAt i t = true) (hi : i ≤ s.length) : i + t.length ≤ s.length := by
  rw [hasAt_iff] at h
  have hle := h.length_le
  rw [drop, List.length_drop, ← length_eq] at hle
  omega

theorem isPrefix_of_hasAt {a b : Text} (ha : s.hasAt i a = true) (hb : s.hasAt i b = true)
    (hle : a.length ≤ b.length) : a <+: b :=
  List.prefix_of_prefix_length_le ((hasAt_iff s i a).1 ha) ((hasAt_iff s i b).1 hb) hle

theorem unit?_of_hasAt {k : Nat} (h : s.hasAt i t = true) (hk : k < t.length) :
    s.unit? (i + k) = some t[k] := by
  obtain ⟨rest, hr⟩ := (hasAt_iff s i t).1 h
  rw [unit?_eq, ← List.getElem?_drop, ← drop, ← hr, List.getElem?_append_left hk,
    List.getElem?_eq_getElem hk]

end Units

section Trivia

variable {s : Source} {i j k : Nat}

theorem TriviaAt.bounds (h : s.TriviaAt i j) (hi : i ≤ s.length) : i ≤ j ∧ j ≤ s.length := by
  induction h with
  | refl i => exact ⟨Nat.le_refl i, hi⟩
  | space hu hs h ih =>
    have hlt := lt_length_of_unit? hu
    obtain ⟨hle, hlen⟩ := ih hlt
    exact ⟨by omega, hlen⟩
  | @comment i k j hc h ih =>
    have hk : k ≤ s.length := by
      rcases hc.ends with he | he
      · exact Nat.le_of_eq he
      · exact Nat.le_of_lt (lt_length_of_unit? he)
    obtain ⟨hle, hlen⟩ := ih hk
    have hik := hc.le
    exact ⟨by omega, hlen⟩

theorem TriviaAt.trans (h : s.TriviaAt i j) (h' : s.TriviaAt j k) : s.TriviaAt i k := by
  induction h with
  | refl i => exact h'
  | space hu hs h ih => exact .space hu hs (ih h')
  | comment hc h ih => exact .comment hc (ih h')

theorem CommentAt.unique (h : s.CommentAt i j) (h' : s.CommentAt i k) : j = k := by
  have aux {j k : Nat} (h : s.CommentAt i j) (h' : s.CommentAt i k) : ¬ j < k := by
    intro hlt
    rcases h.ends with he | he
    · rcases h'.ends with he' | he'
      · omega
      · have := lt_length_of_unit? he'
        omega
    · exact h'.inside j (by have := h.le; omega) hlt he
  exact Nat.le_antisymm (Nat.le_of_not_lt (aux h' h)) (Nat.le_of_not_lt (aux h h'))

theorem noTriviaAt_of_unit {u : CodeUnit} (hu : s.unit? i = some u) (hs : u.isSpace = false)
    (hne : u ≠ CodeUnit.of '/') : s.NoTriviaAt i := by
  constructor
  · rw [hu]
    exact hs
  · rw [Bool.eq_false_iff]
    intro hc
    have hu' := (hasAt_cons.1 hc).1
    rw [hu, Option.some.injEq] at hu'
    exact hne hu'

theorem not_space_of_slashes {u : CodeUnit} (h : s.hasAt i "//" = true)
    (hu : s.unit? i = some u) : u.isSpace = false := by
  have hs : s.unit? i = some (CodeUnit.of '/') := (hasAt_cons.1 h).1
  rw [hu] at hs
  cases hs
  rfl

theorem TriviaAt.unique (h : s.TriviaAt i j) (hj : s.NoTriviaAt j) (h' : s.TriviaAt i k)
    (hk : s.NoTriviaAt k) : j = k := by
  induction h with
  | refl i =>
    cases h' with
    | refl => rfl
    | space hu hs _ =>
      have hn := hj.space
      rw [hu] at hn
      exact absurd hs (by simpa using hn)
    | comment hc _ => exact absurd hc.slashes (by rw [hj.comment]; exact Bool.false_ne_true)
  | space hu hs h ih =>
    cases h' with
    | refl =>
      have hn := hk.space
      rw [hu] at hn
      exact absurd hs (by simpa using hn)
    | space _ _ h' => exact ih hj h'
    | comment hc _ =>
      rw [not_space_of_slashes hc.slashes hu] at hs
      cases hs
  | comment hc h ih =>
    cases h' with
    | refl => exact absurd hc.slashes (by rw [hk.comment]; exact Bool.false_ne_true)
    | space hu hs _ =>
      rw [not_space_of_slashes hc.slashes hu] at hs
      cases hs
    | comment hc' h' =>
      cases hc.unique hc'
      exact ih hj h'

theorem EndsLine.thenTrivia (h : s.EndsLine i) (ht : s.TriviaAt i j) : s.LineThenTrivia i j :=
  ⟨i, Nat.le_refl i, fun _ hl hl' => absurd hl (Nat.not_le_of_lt hl'), h, ht⟩

theorem no_newline_cons {u : CodeUnit} (hu : s.unit? i = some u) (hne : u ≠ CodeUnit.newline)
    (hline : ∀ l, i + 1 ≤ l → l < k → s.unit? l ≠ some CodeUnit.newline) :
    ∀ l, i ≤ l → l < k → s.unit? l ≠ some CodeUnit.newline := by
  intro l hl hl' hunit
  obtain rfl | hlt := Nat.eq_or_lt_of_le hl
  · rw [hu, Option.some.injEq] at hunit
    exact hne hunit
  · exact hline l hlt hl' hunit

theorem LineThenTrivia.cons {u : CodeUnit} (hu : s.unit? i = some u) (hne : u ≠ CodeUnit.newline)
    (h : s.LineThenTrivia (i + 1) j) : s.LineThenTrivia i j := by
  obtain ⟨k, hk, hline, hend, ht⟩ := h
  exact ⟨k, Nat.le_of_succ_le hk, no_newline_cons hu hne hline, hend, ht⟩

/-- Where two slashes stand, the line that goes on after the first one is that of a comment. -/
theorem LineThenTrivia.comment (hc : s.hasAt i "//" = true) (h : s.LineThenTrivia (i + 1) j) :
    s.TriviaAt i j := by
  obtain ⟨k, hk, hline, hend, ht⟩ := h
  obtain ⟨h0, hrest⟩ := hasAt_cons.1 hc
  have h1 := (hasAt_cons.1 hrest).1
  have hne : i + 1 ≠ k := by
    rintro rfl
    obtain hlen | hnl := hend
    · have := lt_length_of_unit? h1
      omega
    · rw [h1] at hnl
      cases hnl
  exact .comment ⟨hc, by omega, no_newline_cons h0 (by decide) hline, hend⟩ ht

/-- Inside a comment the trivia goes on up to a newline or the end and from there. -/
theorem triviaAt_triviaEnd (n i : Nat) (hn : s.length ≤ n + i) (hi : i ≤ s.length) :
    s.TriviaAt i (s.triviaEnd n false i) ∧ s.LineThenTrivia i (s.triviaEnd n true i) := by
  induction n generalizing i with
  | zero =>
    have he : i = s.length := by omega
    exact ⟨.refl i, EndsLine.thenTrivia (.inl he) (.refl i)⟩
  | succ n ih =>
    cases hu : s.unit? i with
    | none =>
      have he : i = s.length := Nat.le_antisymm hi (length_le_of_unit? hu)
      simp only [triviaEnd, hu]
      exact ⟨.refl i, EndsLine.thenTrivia (.inl he) (.refl i)⟩
    | some u =>
      obtain ⟨htrivia, hline⟩ := ih (i + 1) (by omega) (lt_length_of_unit? hu)
      simp only [triviaEnd, hu]
      constructor
      · split
        · next hs => exact .space hu hs htrivia
        split
        · next hc => exact hline.comment hc
        · exact .refl i
      · cases hnl : u != CodeUnit.newline with
        | true => exact hline.cons hu (by simpa using hnl)
        | false =>
          obtain rfl : u = CodeUnit.newline := by simpa using hnl
          exact EndsLine.thenTrivia (.inr hu) (.space hu rfl htrivia)

theorem noTriviaAt_of_none (h : s.unit? i = none) : s.NoTriviaAt i := by
  constructor
  · rw [h]
    rfl
  · rw [Bool.eq_false_iff]
    intro hat
    have hslash := (hasAt_cons.1 hat).1
    rw [h] at hslash
    cases hslash

theorem noTriviaAt_length : s.NoTriviaAt s.length :=
  noTriviaAt_of_none (unit?_eq_none (Nat.le_refl _))

theorem noTriviaAt_triviaEnd (n i : Nat) (comment : Bool) (hn : s.length ≤ n + i) :
    s.NoTriviaAt (s.triviaEnd n comment i) := by
  induction n generalizing i comment with
  | zero =>
    have hnone : s.unit? i = none := unit?_eq_none (by omega)
    cases comment <;> exact noTriviaAt_of_none hnone
  | succ n ih =>
    have hrest {comment : Bool} : s.NoTriviaAt (s.triviaEnd n comment (i + 1)) :=
      ih (i + 1) comment (by omega)
    cases hu : s.unit? i with
    | none => cases comment <;> simpa only [triviaEnd, hu] using noTriviaAt_of_none hu
    | some u =>
      cases comment with
      | true => simpa only [triviaEnd, hu] using hrest
      | false =>
        simp only [triviaEnd, hu]
        split
        · exact hrest
        next hs =>
        split
        · exact hrest
        next hc => exact ⟨by simpa [hu] using hs, by simpa using hc⟩

theorem triviaAt_skip (hi : i ≤ s.length) : s.TriviaAt i (s.skip i) :=
  (triviaAt_triviaEnd (s.length - i) i (by omega) hi).1

theorem noTriviaAt_skip (hi : i ≤ s.length) : s.NoTriviaAt (s.skip i) :=
  noTriviaAt_triviaEnd (s.length - i) i false (by omega)

theorem TriviaAt.skip_eq (h : s.TriviaAt i j) (hj : s.NoTriviaAt j) (hi : i ≤ s.length) :
    s.skip i = j :=
  (triviaAt_skip hi).unique (noTriviaAt_skip hi) h hj

theorem le_skip (hi : i ≤ s.length) : i ≤ s.skip i := ((triviaAt_skip hi).bounds hi).1

theorem skip_le (hi : i ≤ s.length) : s.skip i ≤ s.length := ((triviaAt_skip hi).bounds hi).2

theorem NoTriviaAt.skip_eq (h : s.NoTriviaAt i) (hi : i ≤ s.length) : s.skip i = i :=
  (TriviaAt.refl i).skip_eq h hi

end Trivia

section Lexed

variable {s : Source} {i j k l : Nat} {kind : TokenKind} {ts us : List Token}

theorem TokenAt.bounds (h : s.TokenAt i kind j) (hi : i ≤ s.length) : i < j ∧ j ≤ s.length := by
  obtain ⟨t, ht, hat, rfl, -⟩ := h
  obtain ⟨u, rest, rfl, -⟩ := ht.first
  have hle := add_length_le hat hi
  rw [List.length_cons] at hle ⊢
  omega

theorem TokenAt.noTrivia (h : s.TokenAt i kind j) : s.NoTriviaAt i := by
  obtain ⟨t, ht, hat, rfl, he⟩ := h
  obtain ⟨u, rest, rfl, hs, hm⟩ := ht.first
  have hu := (hasAt_cons.1 hat).1
  rcases hm with ⟨m, rfl⟩ | hne
  · exact ⟨by rw [hu]; exact hs, he.2⟩
  · exact noTriviaAt_of_unit hu hs hne

theorem LexedAt.bounds (h : s.LexedAt i ts j) (hi : i ≤ s.length) : i < j ∧ j ≤ s.length := by
  induction h with
  | single h => exact h.bounds hi
  | cons h ht hs ih =>
    obtain ⟨hij, hj⟩ := h.bounds hi
    obtain ⟨hjk, hk⟩ := ht.bounds hj
    obtain ⟨hkl, hl⟩ := ih hk
    exact ⟨by omega, hl⟩

theorem LexedAt.noTrivia (h : s.LexedAt i ts j) : s.NoTriviaAt i := by
  cases h with
  | single h => exact h.noTrivia
  | cons h ht hs => exact h.noTrivia

theorem LexedAt.ne_nil (h : s.LexedAt i ts j) : ts ≠ [] := by
  cases h <;> exact List.cons_ne_nil _ _

theorem LexedAt.append (h : s.LexedAt i ts j) (ht : s.TriviaAt j k) (h' : s.LexedAt k us l) :
    s.LexedAt i (ts ++ us) l := by
  induction h with
  | single h => exact .cons h ht h'
  | cons h ht' hs ih => exact .cons h ht' (ih ht)

/-- The tokens of the second part start where skipping leads from the end of the first part. -/
theorem LexedAt.split (h : s.LexedAt i (ts ++ us) l) (hi : i ≤ s.length) (hts : ts ≠ [])
    (hus : us ≠ []) : ∃ j, s.LexedAt i ts j ∧ s.LexedAt (s.skip j) us l := by
  induction ts generalizing i with
  | nil => exact absurd rfl hts
  | cons t ts ih =>
    rw [List.cons_append] at h
    generalize hr : ts ++ us = rest at h
    cases h with
    | single => exact absurd (List.append_eq_nil_iff.1 hr).2 hus
    | @cons _ j k _ kind _ h ht hs =>
      subst hr
      obtain ⟨-, hj⟩ := h.bounds hi
      cases ts with
      | nil => exact ⟨j, .single h, by rwa [ht.skip_eq hs.noTrivia hj]⟩
      | cons t' ts =>
        obtain ⟨m, h₁, h₂⟩ := ih hs (ht.bounds hj).2 (List.cons_ne_nil _ _)
        exact ⟨m, .cons h ht h₁, h₂⟩

theorem LexedAt.uncons {t : Token} (h : s.LexedAt i (t :: us) l) (hi : i ≤ s.length)
    (hus : us ≠ []) : ∃ j, s.TokenAt i t.kind j ∧ t.span = ⟨s.position i, s.position j⟩ ∧
      s.LexedAt (s.skip j) us l := by
  cases h with
  | single => exact absurd rfl hus
  | @cons _ j k _ kind _ h ht hs =>
    exact ⟨j, h, rfl, by rwa [ht.skip_eq hs.noTrivia (h.bounds hi).2]⟩

theorem LexedAt.of_single {t : Token} (h : s.LexedAt i [t] j) :
    s.TokenAt i t.kind j ∧ t.span = ⟨s.position i, s.position j⟩ := by
  cases h with
  | single h => exact ⟨h, rfl⟩
  | cons h ht hs => exact absurd rfl hs.ne_nil

theorem LexedAt.head {t : Token} (h : s.LexedAt i (t :: us) l) :
    ∃ j, s.TokenAt i t.kind j := by
  cases h with
  | single h => exact ⟨_, h⟩
  | cons h ht hs => exact ⟨_, h⟩

theorem lexedAfter_iff (hi : i ≤ s.length) :
    s.LexedAfter i ts j ↔ ts = [] ∧ i = j ∨ s.LexedAt (s.skip i) ts j := by
  constructor
  · rintro (h | ⟨m, ht, hs⟩)
    · exact .inl h
    · rw [ht.skip_eq hs.noTrivia hi]
      exact .inr hs
  · rintro (h | hs)
    · exact .inl h
    · exact .inr ⟨_, triviaAt_skip hi, hs⟩

theorem LexedAt.after (h : s.LexedAt (s.skip i) ts j) (hi : i ≤ s.length) : s.LexedAfter i ts j :=
  .inr ⟨_, triviaAt_skip hi, h⟩

theorem LexedAt.after_here (h : s.LexedAt i ts j) : s.LexedAfter i ts j :=
  .inr ⟨i, .refl i, h⟩

theorem LexedAfter.at (h : s.LexedAfter i ts j) (hi : i ≤ s.length) (hts : ts ≠ []) :
    s.LexedAt (s.skip i) ts j := by
  obtain ⟨he, -⟩ | h := (lexedAfter_iff hi).1 h
  · exact absurd he hts
  · exact h

theorem LexedAfter.bounds (h : s.LexedAfter i ts j) (hi : i ≤ s.length) :
    i ≤ j ∧ j ≤ s.length := by
  obtain ⟨-, rfl⟩ | ⟨m, ht, hs⟩ := h
  · exact ⟨Nat.le_refl i, hi⟩
  · obtain ⟨him, hm⟩ := ht.bounds hi
    obtain ⟨hmj, hj⟩ := hs.bounds hm
    exact ⟨by omega, hj⟩

theorem LexedAfter.append (h : s.LexedAfter i ts j) (h' : s.LexedAfter j us k) :
    s.LexedAfter i (ts ++ us) k := by
  obtain ⟨rfl, rfl⟩ | ⟨m, ht, hs⟩ := h
  · exact h'
  · obtain ⟨rfl, rfl⟩ | ⟨m', ht', hs'⟩ := h'
    · rw [List.append_nil]
      exact .inr ⟨m, ht, hs⟩
    · exact .inr ⟨m, ht, hs.append ht' hs'⟩

theorem LexedAt.append_after (h : s.LexedAt i ts j) (h' : s.LexedAfter j us k) :
    s.LexedAt i (ts ++ us) k := by
  obtain ⟨rfl, rfl⟩ | ⟨m, ht, hs⟩ := h'
  · rwa [List.append_nil]
  · exact h.append ht hs

theorem LexedAt.split_after (h : s.LexedAt i (ts ++ us) l) (hi : i ≤ s.length) (hts : ts ≠ []) :
    ∃ j, s.LexedAt i ts j ∧ s.LexedAfter j us l := by
  by_cases hus : us = []
  · subst hus
    rw [List.append_nil] at h
    exact ⟨l, h, .inl ⟨rfl, rfl⟩⟩
  · obtain ⟨j, hj, hl⟩ := h.split hi hts hus
    exact ⟨j, hj, hl.after (hj.bounds hi).2⟩

theorem LexedAfter.split (h : s.LexedAfter i (ts ++ us) l) (hi : i ≤ s.length) :
    ∃ j, s.LexedAfter i ts j ∧ s.LexedAfter j us l := by
  by_cases hts : ts = []
  · subst hts
    exact ⟨i, .inl ⟨rfl, rfl⟩, h⟩
  have hat := h.at hi fun he => hts (List.append_eq_nil_iff.1 he).1
  obtain ⟨j, hj, hl⟩ := hat.split_after (skip_le hi) hts
  exact ⟨j, hj.after hi, hl⟩

theorem LexedAfter.uncons {t : Token} (h : s.LexedAfter i (t :: us) l) (hi : i ≤ s.length) :
    ∃ j, s.TokenAt (s.skip i) t.kind j ∧ t.span = ⟨s.position (s.skip i), s.position j⟩ ∧
      i ≤ j ∧ j ≤ s.length ∧ s.LexedAfter j us l := by
  have hcons : s.LexedAfter i ([t] ++ us) l := h
  obtain ⟨j, hj, hrest⟩ := hcons.split hi
  obtain ⟨ht, hspan⟩ := (hj.at hi (List.cons_ne_nil _ _)).of_single
  obtain ⟨hij, hlen⟩ := hj.bounds hi
  exact ⟨j, ht, hspan, hij, hlen, hrest⟩

theorem LexedAfter.of_nil (h : s.LexedAfter i [] j) : i = j := by
  obtain ⟨-, he⟩ | ⟨m, -, hl⟩ := h
  · exact he
  · exact absurd rfl hl.ne_nil

/-- Trivia before tokens, of which there is at least one, may be skipped. -/
theorem LexedAfter.of_skip (h : s.LexedAfter (s.skip i) ts j) (hi : i ≤ s.length) (hts : ts ≠ []) :
    s.LexedAfter i ts j := by
  obtain ⟨he, -⟩ | ⟨m, ht, hs⟩ := h
  · exact absurd he hts
  · exact .inr ⟨m, (triviaAt_skip hi).trans ht, hs⟩

end Lexed

end Source

/-- The stretch from the start of the first token to the end of the last one. -/
def Token.extent (ts : List Token) : Span where
  start := (ts.head?.map fun t => t.span.start).getD default
  stop := (ts.getLast?.map fun t => t.span.stop).getD default

theorem Token.extent_stop (t u : Token) (ts : List Token) :
    (extent (t :: (ts ++ [u]))).stop = u.span.stop := by
  simp [extent, List.getLast?_cons]

theorem Source.LexedAt.extent {s : Source} {i j : Nat} {ts : List Token} (h : s.LexedAt i ts j) :
    Token.extent ts = ⟨s.position i, s.position j⟩ := by
  induction h with
  | single h => rfl
  | cons h ht hs ih =>
    have hstop := congrArg Span.stop ih
    simp only [Token.extent] at hstop ⊢
    rw [List.getLast?_cons_of_ne_nil hs.ne_nil, hstop]
    rfl

end BrookSyntax
