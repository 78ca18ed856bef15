import BrookSyntax.Proofs.Tokens

namespace BrookSyntax

namespace Source

variable {s : Source} {i j n : Nat} {t t' : Text} {u : CodeUnit} {test : CodeUnit → Bool}

theorem hasAt_concat : s.hasAt i (t ++ [u]) = true ↔
    s.hasAt i t = true ∧ s.unit? (i + t.length) = some u := by
  rw [hasAt_append, hasAt_cons, hasAt, and_iff_left rfl]

theorem slice_of_hasAt (h : s.hasAt i t = true) : s.slice i (i + t.length) = t := by
  obtain ⟨rest, hr⟩ := (hasAt_iff s i t).1 h
  rw [slice_eq, List.drop_take, Nat.add_sub_cancel_left, ← drop, ← hr]
  exact List.take_left

theorem run_le (hstop : (s.unit? (i + t.length)).any test = false) (h' : s.hasAt i t' = true)
    (hall : ∀ u ∈ t', test u = true) : t'.length ≤ t.length := by
  apply Nat.le_of_not_lt
  intro hlt
  have hu := unit?_of_hasAt h' hlt
  rw [hu] at hstop
  have ht := hall _ (List.getElem_mem hlt)
  simp only [Option.any_some] at hstop
  rw [ht] at hstop
  cases hstop

theorem eq_of_hasAt (h : s.hasAt i t = true) (h' : s.hasAt i t' = true)
    (hl : t.length = t'.length) : t = t' :=
  (isPrefix_of_hasAt h h' (Nat.le_of_eq hl)).eq_of_length hl

theorem run_unique (h : s.hasAt i t = true) (hall : ∀ u ∈ t, test u = true)
    (hstop : (s.unit? (i + t.length)).any test = false) (h' : s.hasAt i t' = true)
    (hall' : ∀ u ∈ t', test u = true) (hstop' : (s.unit? (i + t'.length)).any test = false) :
    t = t' :=
  eq_of_hasAt h h' (Nat.le_antisymm (run_le hstop' h hall) (run_le hstop h' hall'))

theorem runEnd_eq (h : s.hasAt i t = true) (hall : ∀ u ∈ t, test u = true)
    (hstop : (s.unit? (i + t.length)).any test = false) (hn : t.length ≤ n) :
    s.runEnd test n i = i + t.length := by
  induction t generalizing i n with
  | nil =>
    cases n with
    | zero => rfl
    | succ n =>
      rw [runEnd]
      cases hu : s.unit? i with
      | none => rfl
      | some u =>
        have hf : test u = false := by simpa [hu] using hstop
        simp [hf]
  | cons u t ih =>
    obtain ⟨hu, ht⟩ := hasAt_cons.1 h
    cases n with
    | zero => cases hn
    | succ n =>
      have hi : i + 1 + t.length = i + (t.length + 1) := by omega
      rw [List.length_cons, ← hi] at hstop ⊢
      simp only [runEnd, hu, hall u List.mem_cons_self, ↓reduceIte]
      exact ih ht (fun v hv => hall v (List.mem_cons_of_mem u hv)) hstop (Nat.le_of_succ_le_succ hn)

/-- The longest run of units that satisfy a test, from an offset on. -/
structure RunAt (s : Source) (test : CodeUnit → Bool) (i : Nat) (t : Text) : Prop where
  hasAt : s.hasAt i t
  all : ∀ u ∈ t, test u
  stop : (s.unit? (i + t.length)).any test = false

theorem RunAt.unique (h : s.RunAt test i t) (h' : s.RunAt test i t') : t = t' :=
  run_unique h.hasAt h.all h.stop h'.hasAt h'.all h'.stop

theorem exists_runAt (test : CodeUnit → Bool) (hi : i ≤ s.length) : ∃ t, s.RunAt test i t := by
  generalize hn : s.length - i = n
  induction n generalizing i with
  | zero =>
    have hu := unit?_eq_none (s := s) (i := i) (by omega)
    exact ⟨[], rfl, by simp, by simp [hu]⟩
  | succ n ih =>
    obtain ⟨t, hat, hall, hstop⟩ := ih (i := i + 1) (by omega) (by omega)
    cases hu : s.unit? i with
    | none => exact ⟨[], rfl, by simp, by simp [hu]⟩
    | some u =>
      cases ht : test u with
      | false => exact ⟨[], rfl, by simp, by simp [hu, ht]⟩
      | true =>
        refine ⟨u :: t, hasAt_cons.2 ⟨hu, hat⟩, by simpa [ht] using hall, ?_⟩
        rwa [List.length_cons, Nat.add_comm t.length, ← Nat.add_assoc]

end Source

namespace Parser

open Source

variable {s : Source} {c d : Cursor} {t w : Text} {test : CodeUnit → Bool}

theorem literal_eq_ok (hc : c.offset ≤ s.length) :
    literal t s c = .ok d w ↔
      s.hasAt c.offset t = true ∧ ⟨c.offset + t.length, c.depth⟩ = d ∧ t = w := by
  rw [literal, Cursor.advance]
  by_cases h : s.hasAt c.offset t = true
  · simp only [h, ↓reduceIte, Result.ok.injEq, Nat.min_eq_left (add_length_le h hc), true_and]
  · simp only [h, Bool.false_eq_true, ↓reduceIte, reduceCtorEq, false_and]

theorem literal_declines (h : s.hasAt c.offset t = false) : (literal t).Declines s c := by
  refine ⟨{ cause := .literal t, offset := c.offset }, ?_, rfl⟩
  simp only [literal, h, Bool.false_eq_true, ↓reduceIte]

theorem literalBefore_eq_ok {forbidden : Option CodeUnit → Bool} (hc : c.offset ≤ s.length) :
    literalBefore t forbidden s c = .ok d w ↔
      s.hasAt c.offset t = true ∧ forbidden (s.unit? (c.offset + t.length)) = false ∧
        ⟨c.offset + t.length, c.depth⟩ = d ∧ t = w := by
  rw [literalBefore, Cursor.advance]
  by_cases h : s.hasAt c.offset t = true
  · cases hf : forbidden (s.unit? (c.offset + t.length)) with
    | false => simp [h, Nat.min_eq_left (add_length_le h hc)]
    | true => simp
  · simp [h]

theorem literalBefore_declines {forbidden : Option CodeUnit → Bool}
    (h : s.hasAt c.offset t = true → forbidden (s.unit? (c.offset + t.length)) = true) :
    (literalBefore t forbidden).Declines s c := by
  refine ⟨{ cause := .literal t, offset := c.offset }, ?_, rfl⟩
  rw [literalBefore]
  cases ht : s.hasAt c.offset t with
  | false => simp
  | true => simp [h ht]

theorem satisfy_eq_ok {description : Text} :
    satisfy test description s c = .ok d w ↔
      ∃ u, s.unit? c.offset = some u ∧ test u = true ∧ ⟨c.offset + 1, c.depth⟩ = d ∧ [u] = w := by
  rw [satisfy, Cursor.peek?]
  cases hu : s.unit? c.offset with
  | none => simp
  | some u =>
    have hlt := lt_length_of_unit? hu
    cases ht : test u with
    | false => simp [ht]
    | true => simp [ht, Cursor.advance, Nat.min_eq_left hlt]

theorem satisfy_declines {description : Text} (h : (s.unit? c.offset).any test = false) :
    (satisfy test description).Declines s c := by
  refine ⟨{ cause := .token description, offset := c.offset }, ?_, rfl⟩
  rw [satisfy, Cursor.peek?]
  cases hu : s.unit? c.offset with
  | none => rfl
  | some u =>
    rw [hu, Option.any_some] at h
    simp [h]

theorem takeWhile_eq_ok (hc : c.offset ≤ s.length) :
    takeWhile test s c = .ok d w ↔
      s.hasAt c.offset w = true ∧ (∀ u ∈ w, test u = true) ∧
        (s.unit? (c.offset + w.length)).any test = false ∧
        ⟨c.offset + w.length, c.depth⟩ = d := by
  have key {t : Text} (hat : s.hasAt c.offset t = true) (hall : ∀ u ∈ t, test u = true)
      (hstop : (s.unit? (c.offset + t.length)).any test = false) :
      takeWhile test s c = .ok ⟨c.offset + t.length, c.depth⟩ t := by
    have hle := add_length_le hat hc
    simp only [takeWhile, runEnd_eq hat hall hstop (by omega : t.length ≤ s.length - c.offset),
      Cursor.sliceTo, slice_of_hasAt hat]
  constructor
  · intro h
    obtain ⟨t, hat, hall, hstop⟩ := exists_runAt test hc
    rw [key hat hall hstop] at h
    cases h
    exact ⟨hat, hall, hstop, rfl⟩
  · rintro ⟨hat, hall, hstop, rfl⟩
    exact key hat hall hstop

/-- A unit of one class and the run of units of another one after it. -/
theorem satisfy_takeWhile_eq_ok {first : CodeUnit → Bool} {description : Text} :
    (satisfy first description *> takeWhile test) s c = .ok d w ↔
      ∃ u, first u = true ∧ s.hasAt c.offset (u :: w) = true ∧ (∀ v ∈ w, test v = true) ∧
        (s.unit? (c.offset + (u :: w).length)).any test = false ∧
        ⟨c.offset + (u :: w).length, c.depth⟩ = d := by
  have hl : c.offset + 1 + w.length = c.offset + (w.length + 1) := by omega
  simp only [seqRight_eq_ok, satisfy_eq_ok, List.length_cons, hasAt_cons, ← hl]
  constructor
  · rintro ⟨e, _, ⟨u, hu, hfirst, rfl, -⟩, htake⟩
    have hlt : c.offset + 1 ≤ s.length := lt_length_of_unit? hu
    obtain ⟨hat, hall, hstop, hd⟩ :=
      (takeWhile_eq_ok (c := ⟨c.offset + 1, c.depth⟩) hlt).1 htake
    exact ⟨u, hfirst, ⟨hu, hat⟩, hall, hstop, hd⟩
  · rintro ⟨u, hfirst, ⟨hu, hat⟩, hall, hstop, hd⟩
    have hlt : c.offset + 1 ≤ s.length := lt_length_of_unit? hu
    exact ⟨⟨c.offset + 1, c.depth⟩, [u], ⟨u, hu, hfirst, rfl, rfl⟩,
      (takeWhile_eq_ok (c := ⟨c.offset + 1, c.depth⟩) hlt).2 ⟨hat, hall, hstop, hd⟩⟩

end Parser

namespace Source

variable {s : Source} {i j : Nat} {m t : Text} {u : CodeUnit}

/-- A mark stands where its text does, unless a longer mark or a comment starts there. -/
theorem tokenAt_mark (hm : m ∈ marks) (hat : s.hasAt i m = true)
    (hlong : ∀ m' ∈ marks, m <+: m' → m' ≠ m → s.hasAt i m' = false)
    (hc : s.hasAt i "//" = false) : s.TokenAt i (.mark m) (i + m.length) := by
  refine ⟨m, ⟨rfl, hm⟩, hat, rfl, ?_, hc⟩
  intro m' hm' hat'
  rcases Nat.le_total m'.length m.length with hle | hle
  · omega
  · by_cases he : m' = m
    · exact Nat.le_of_eq (by rw [he])
    · rw [hlong m' hm' (isPrefix_of_hasAt hat hat' hle) he] at hat'
      cases hat'

theorem noComment_of_mark (hm : m ∈ marks) (hat : s.hasAt i m = true)
    (hne : m.head? ≠ some (CodeUnit.of '/')) : s.hasAt i "//" = false := by
  rw [Bool.eq_false_iff]
  intro hc
  obtain ⟨u, rest, rfl, -⟩ := marks_first hm
  have hu := (hasAt_cons.1 hat).1
  have hu' := (hasAt_cons.1 hc).1
  rw [hu] at hu'
  exact hne hu'

theorem tokenAt_plain_mark (hm : m ∈ marks) (hat : s.hasAt i m = true)
    (hp : (∀ m' ∈ marks, m <+: m' → m' = m) ∧ m.head? ≠ some (CodeUnit.of '/')) :
    s.TokenAt i (.mark m) (i + m.length) := by
  apply tokenAt_mark hm hat _ (noComment_of_mark hm hat hp.2)
  intro m' hm' hpre hne
  exact absurd (hp.1 m' hm' hpre) hne

theorem TokenAt.hasAt_mark (h : s.TokenAt i (.mark m) j) :
    s.hasAt i m = true ∧ j = i + m.length := by
  obtain ⟨t, ⟨rfl, -⟩, hat, hj, -⟩ := h
  exact ⟨hat, hj⟩

theorem TokenAt.mark_longest {m' : Text} (h : s.TokenAt i (.mark m) j) (hm' : m' ∈ marks)
    (hlt : m.length < m'.length) : s.hasAt i m' = false := by
  obtain ⟨t, ⟨rfl, -⟩, hat, rfl, he, -⟩ := h
  cases hat' : s.hasAt i m' with
  | false => rfl
  | true =>
    have := he m' hm' hat'
    omega

theorem tokenAt_keyword {w : Text} (hw : w ∈ keywords) :
    s.TokenAt i (.keyword w) j ↔
      s.hasAt i w = true ∧ j = i + w.length ∧ (s.unit? j).any CodeUnit.isWordPart = false := by
  constructor
  · rintro ⟨t, ⟨rfl, -⟩, hat, hj, he⟩
    exact ⟨hat, hj, he⟩
  · rintro ⟨hat, hj, he⟩
    exact ⟨w, ⟨rfl, hw⟩, hat, hj, he⟩

theorem tokenAt_name {w : Text} :
    s.TokenAt i (.name w) j ↔
      (IsWord w ∧ w ∉ keywords) ∧ s.hasAt i w = true ∧ j = i + w.length ∧
        (s.unit? j).any CodeUnit.isWordPart = false := by
  constructor
  · rintro ⟨t, ⟨rfl, hw⟩, hat, hj, he⟩
    exact ⟨hw, hat, hj, he⟩
  · rintro ⟨hw, hat, hj, he⟩
    exact ⟨w, ⟨rfl, hw⟩, hat, hj, he⟩

end Source

namespace Grammar

open BrookSyntax.Parser Source

variable {s : Source} {c d : Cursor} {t w : Text}

theorem keyword_eq_ok (hc : c.offset ≤ s.length) (hw : w ∈ keywords) :
    keyword w s c = .ok d t ↔
      s.TokenAt c.offset (.keyword w) d.offset ∧ d.depth = c.depth ∧ w = t := by
  rw [keyword, literalBefore_eq_ok hc, tokenAt_keyword hw]
  constructor
  · rintro ⟨hat, hf, rfl, ht⟩
    exact ⟨⟨hat, rfl, hf⟩, rfl, ht⟩
  · rintro ⟨⟨hat, hj, hf⟩, hd, ht⟩
    refine ⟨hat, hj ▸ hf, ?_, ht⟩
    rw [← hj, ← hd]

theorem word_eq_ok :
    word s c = .ok d t ↔
      IsWord t ∧ s.hasAt c.offset t = true ∧
        (s.unit? (c.offset + t.length)).any CodeUnit.isWordPart = false ∧
        ⟨c.offset + t.length, c.depth⟩ = d := by
  rw [word, consumed_eq_ok]
  simp only [satisfy_takeWhile_eq_ok]
  constructor
  · rintro ⟨a, ⟨u, hstart, hat, hall, hstop, rfl⟩, rfl⟩
    rw [Cursor.sliceTo, slice_of_hasAt hat]
    refine ⟨⟨⟨u, a, rfl, hstart⟩, ?_⟩, hat, hstop, rfl⟩
    intro v hv
    rcases List.mem_cons.1 hv with rfl | hv
    · rw [CodeUnit.isWordPart, hstart, Bool.true_or]
    · exact hall v hv
  · rintro ⟨⟨⟨u, a, rfl, hstart⟩, hall⟩, hat, hstop, rfl⟩
    refine ⟨a, ⟨u, hstart, hat, fun v hv => hall v (List.mem_cons_of_mem u hv), hstop, rfl⟩, ?_⟩
    rw [Cursor.sliceTo, slice_of_hasAt hat]

theorem identifier_eq_ok :
    identifier s c = .ok d w ↔ s.TokenAt c.offset (.name w) d.offset ∧ d.depth = c.depth := by
  rw [tokenAt_name, identifier]
  constructor
  · intro h
    split at h
    · next e t hw =>
      split at h
      · cases h
      · next hk =>
        cases h
        obtain ⟨hword, hat, hstop, rfl⟩ := word_eq_ok.1 hw
        exact ⟨⟨⟨hword, by simpa using hk⟩, hat, rfl, hstop⟩, rfl⟩
    · cases h
  · rintro ⟨⟨⟨hword, hk⟩, hat, hj, hstop⟩, hd⟩
    have hw : word s c = .ok d w := by
      refine word_eq_ok.2 ⟨hword, hat, hj ▸ hstop, ?_⟩
      rw [← hj, ← hd]
    simp only [hw, List.contains_eq_mem, hk, decide_false, Bool.false_eq_true, ↓reduceIte]

theorem name_eq_ok {n : Name} :
    name s c = .ok d n ↔
      s.TokenAt c.offset (.name n.text) d.offset ∧ d.depth = c.depth ∧ n.span = c.spanTo d s := by
  rw [name, mapSpan_eq_ok]
  simp only [identifier_eq_ok]
  constructor
  · rintro ⟨w, ⟨hw, hd⟩, rfl⟩
    exact ⟨hw, hd, rfl⟩
  · rintro ⟨hw, hd, hs⟩
    refine ⟨n.text, ⟨hw, hd⟩, ?_⟩
    rw [← hs]

end Grammar

namespace Source

variable {s : Source} {i j : Nat} {a b t : Text}

theorem add_decimal_length :
    i + a.length + 1 + b.length = i + (a ++ CodeUnit.of '.' :: b).length := by
  rw [List.length_append, List.length_cons]
  omega

theorem digits_le_of_stop (hstop : (s.unit? (i + a.length)).any CodeUnit.isDigit = false)
    (hb : IsDigits b) (hat : s.hasAt i b = true) : b.length ≤ a.length :=
  run_le hstop hat hb.2

/-- A numeral that is followed neither by a digit nor, if it has no point, by a point and a digit
is the longest one. -/
theorem numeral_le_whole (ha : IsDigits a) (hat : s.hasAt i a = true)
    (hstop : (s.unit? (i + a.length)).any CodeUnit.isDigit = false)
    (hpoint : s.unit? (i + a.length) = some (CodeUnit.of '.') →
      (s.unit? (i + a.length + 1)).any CodeUnit.isDigit = false)
    (ht : IsNumeral t) (hat' : s.hasAt i t = true) : t.length ≤ a.length := by
  cases ht with
  | whole ht => exact digits_le_of_stop hstop ht hat'
  | @decimal b f hb hf =>
    exfalso
    obtain ⟨hbat, hpat⟩ := hasAt_append.1 hat'
    obtain ⟨hp, hfat⟩ := hasAt_cons.1 hpat
    have hle : b.length ≤ a.length := digits_le_of_stop hstop hb hbat
    have hge : a.length ≤ b.length :=
      digits_le_of_stop (by rw [hp]; rfl) ha hat
    have he : b.length = a.length := Nat.le_antisymm hle hge
    rw [he] at hp hfat
    have hd := hpoint hp
    cases f with
    | nil => exact hf.1 rfl
    | cons u f =>
      rw [(hasAt_cons.1 hfat).1, Option.any_some, hf.2 u List.mem_cons_self] at hd
      cases hd

theorem numeral_le_decimal (ha : IsDigits a)
    (hat : s.hasAt i (a ++ CodeUnit.of '.' :: b) = true)
    (hstop : (s.unit? (i + (a ++ CodeUnit.of '.' :: b).length)).any CodeUnit.isDigit = false)
    (ht : IsNumeral t) (hat' : s.hasAt i t = true) :
    t.length ≤ (a ++ CodeUnit.of '.' :: b).length := by
  obtain ⟨haat, hpat⟩ := hasAt_append.1 hat
  obtain ⟨hp, hbat⟩ := hasAt_cons.1 hpat
  have hastop : (s.unit? (i + a.length)).any CodeUnit.isDigit = false := by rw [hp]; rfl
  cases ht with
  | whole ht =>
    have := digits_le_of_stop hastop ht hat'
    rw [List.length_append]
    omega
  | @decimal c f hc hf =>
    obtain ⟨hcat, hpat'⟩ := hasAt_append.1 hat'
    obtain ⟨hp', hfat⟩ := hasAt_cons.1 hpat'
    have hle : c.length ≤ a.length := digits_le_of_stop hastop hc hcat
    have hge : a.length ≤ c.length := digits_le_of_stop (by rw [hp']; rfl) ha haat
    have he : c.length = a.length := Nat.le_antisymm hle hge
    rw [he] at hfat
    rw [← add_decimal_length] at hstop
    have := digits_le_of_stop hstop hf hfat
    rw [List.length_append, List.length_append, List.length_cons, List.length_cons]
    omega

theorem stop_of_longest (ht : IsNumeral t) (hat : s.hasAt i t = true)
    (hlong : ∀ t', IsNumeral t' → s.hasAt i t' = true → t'.length ≤ t.length) :
    (s.unit? (i + t.length)).any CodeUnit.isDigit = false := by
  have digits {a : Text} {u : CodeUnit} (ha : IsDigits a) (hu : u.isDigit = true) :
      IsDigits (a ++ [u]) := by
    refine ⟨by simp, ?_⟩
    intro v hv
    rcases List.mem_append.1 hv with hv | hv
    · exact ha.2 v hv
    · rwa [List.mem_singleton.1 hv]
  cases hu : s.unit? (i + t.length) with
  | none => rfl
  | some u =>
    cases hd : u.isDigit with
    | false => simp [hd]
    | true =>
      have hn : IsNumeral (t ++ [u]) := by
        cases ht with
        | whole ha => exact .whole (digits ha hd)
        | decimal ha hb =>
          rw [List.append_assoc, List.cons_append]
          exact .decimal ha (digits hb hd)
      have := hlong _ hn (hasAt_concat.2 ⟨hat, hu⟩)
      rw [List.length_append, List.length_singleton] at this
      omega

theorem no_point_of_longest (ha : IsDigits a) (hat : s.hasAt i a = true)
    (hlong : ∀ t', IsNumeral t' → s.hasAt i t' = true → t'.length ≤ a.length)
    (hp : s.unit? (i + a.length) = some (CodeUnit.of '.')) :
    (s.unit? (i + a.length + 1)).any CodeUnit.isDigit = false := by
  cases hu : s.unit? (i + a.length + 1) with
  | none => rfl
  | some u =>
    cases hd : u.isDigit with
    | false => simp [hd]
    | true =>
      have hn : IsNumeral (a ++ CodeUnit.of '.' :: [u]) :=
        .decimal ha ⟨List.cons_ne_nil _ _, by simpa using hd⟩
      have hat' : s.hasAt i (a ++ CodeUnit.of '.' :: [u]) = true :=
        hasAt_append.2 ⟨hat, hasAt_cons.2 ⟨hp, hasAt_cons.2 ⟨hu, rfl⟩⟩⟩
      have := hlong _ hn hat'
      rw [List.length_append, List.length_cons] at this
      omega

end Source

namespace Grammar

open BrookSyntax.Parser Source

variable {s : Source} {c d : Cursor} {t w : Text}

/-- The part of a numeral after its first digits. -/
def fraction : Parser Text :=
  literal "." *> satisfy CodeUnit.isDigit "digit" *> takeWhile CodeUnit.isDigit

theorem digits_eq_ok {description : Text} :
    (satisfy CodeUnit.isDigit description *> takeWhile CodeUnit.isDigit) s c = .ok d w ↔
      ∃ u, IsDigits (u :: w) ∧ s.hasAt c.offset (u :: w) = true ∧
        (s.unit? (c.offset + (u :: w).length)).any CodeUnit.isDigit = false ∧
        ⟨c.offset + (u :: w).length, c.depth⟩ = d := by
  rw [satisfy_takeWhile_eq_ok]
  constructor
  · rintro ⟨u, hu, hat, hall, hstop, hd⟩
    exact ⟨u, isDigits_cons.2 ⟨hu, hall⟩, hat, hstop, hd⟩
  · rintro ⟨u, ha, hat, hstop, hd⟩
    obtain ⟨hu, hall⟩ := isDigits_cons.1 ha
    exact ⟨u, hu, hat, hall, hstop, hd⟩

theorem fraction_eq_ok (hc : c.offset ≤ s.length) :
    fraction s c = .ok d w ↔
      ∃ u, IsDigits (u :: w) ∧ s.hasAt c.offset (CodeUnit.of '.' :: u :: w) = true ∧
        (s.unit? (c.offset + 1 + (u :: w).length)).any CodeUnit.isDigit = false ∧
        ⟨c.offset + 1 + (u :: w).length, c.depth⟩ = d := by
  have hrun : (satisfy CodeUnit.isDigit "digit" *> takeWhile CodeUnit.isDigit) s
      ⟨c.offset + 1, c.depth⟩ = .ok d w ↔ _ := digits_eq_ok
  rw [seqRight_eq_ok] at hrun
  rw [fraction, seqRight_eq_ok]
  simp only [seqRight_eq_ok, literal_eq_ok hc]
  constructor
  · rintro ⟨e, a, ⟨_, _, ⟨hp, rfl, rfl⟩, hsat⟩, htake⟩
    obtain ⟨u, hb, hat, hstop, hd⟩ := hrun.1 ⟨e, a, hsat, htake⟩
    exact ⟨u, hb, hasAt_cons.2 ⟨(hasAt_cons.1 hp).1, hat⟩, hstop, hd⟩
  · rintro ⟨u, hb, hat, hstop, hd⟩
    obtain ⟨hp, hat⟩ := hasAt_cons.1 hat
    obtain ⟨e, a, hsat, htake⟩ := hrun.2 ⟨u, hb, hat, hstop, hd⟩
    exact ⟨e, a, ⟨⟨c.offset + 1, c.depth⟩, ".", ⟨hasAt_cons.2 ⟨hp, rfl⟩, rfl, rfl⟩, hsat⟩, htake⟩

theorem fraction_declines (hc : c.offset ≤ s.length)
    (h : s.unit? c.offset = some (CodeUnit.of '.') →
      (s.unit? (c.offset + 1)).any CodeUnit.isDigit = false) : fraction.Declines s c := by
  rw [fraction]
  refine Declines.seqRight ?_ _
  cases hp : s.hasAt c.offset "." with
  | false => exact (literal_declines hp).seqRight _
  | true =>
    refine Declines.bind_right (f := fun _ => satisfy CodeUnit.isDigit "digit")
      ((literal_eq_ok hc).2 ⟨hp, rfl, rfl⟩) (satisfy_declines ?_)
    exact h (hasAt_cons.1 hp).1

theorem no_point_of_fraction_declines (h : fraction.Declines s c)
    (hp : s.unit? c.offset = some (CodeUnit.of '.')) :
    (s.unit? (c.offset + 1)).any CodeUnit.isDigit = false := by
  cases hu : s.unit? (c.offset + 1) with
  | none => rfl
  | some u =>
    cases hd : u.isDigit with
    | false => simp [hd]
    | true =>
      have hc : c.offset ≤ s.length := Nat.le_of_lt (lt_length_of_unit? hp)
      have hlt := lt_length_of_unit? hu
      obtain ⟨w, hat, hall, hstop⟩ := exists_runAt (s := s) CodeUnit.isDigit hlt
      have hl : c.offset + 1 + (u :: w).length = c.offset + 1 + 1 + w.length := by
        rw [List.length_cons]
        omega
      have hok : fraction s c = .ok _ w := (fraction_eq_ok hc).2
        ⟨u, ⟨List.cons_ne_nil _ _, by simpa [hd] using hall⟩,
          hasAt_cons.2 ⟨hp, hasAt_cons.2 ⟨hu, hat⟩⟩, by rw [hl]; exact hstop, rfl⟩
      obtain ⟨f, hf, -⟩ := h
      rw [hok] at hf
      cases hf

/-- A numeral is read up to a unit that is no digit, and without its point only where no point with
a digit follows. -/
theorem numeral_reads (hc : c.offset ≤ s.length) :
    numeral s c = .ok d t ↔
      (IsDigits t ∧ (s.unit? (c.offset + t.length) = some (CodeUnit.of '.') →
          (s.unit? (c.offset + t.length + 1)).any CodeUnit.isDigit = false) ∨
        ∃ a b, IsDigits a ∧ IsDigits b ∧ t = a ++ CodeUnit.of '.' :: b) ∧
      s.hasAt c.offset t = true ∧
      (s.unit? (c.offset + t.length)).any CodeUnit.isDigit = false ∧
      ⟨c.offset + t.length, c.depth⟩ = d := by
  have hn : numeral = consumed ((satisfy CodeUnit.isDigit "number" *>
    takeWhile CodeUnit.isDigit) *> optional fraction) := rfl
  rw [hn, consumed_eq_ok]
  simp only [seqRight_eq_ok (p := satisfy _ _ *> _), digits_eq_ok, optional_eq_ok]
  constructor
  · rintro ⟨o, ⟨e, w, ⟨u, ha, hat, hstop, rfl⟩, ⟨f, hf, rfl⟩ | ⟨hf, rfl, rfl⟩⟩, rfl⟩
    · obtain ⟨v, hb, hbat, hbstop, rfl⟩ := (fraction_eq_ok (add_length_le hat hc)).1 hf
      have hfull := hasAt_append.2 ⟨hat, hbat⟩
      rw [add_decimal_length] at hbstop ⊢
      rw [Cursor.sliceTo, slice_of_hasAt hfull]
      exact ⟨.inr ⟨_, _, ha, hb, rfl⟩, hfull, hbstop, rfl⟩
    · rw [Cursor.sliceTo, slice_of_hasAt hat]
      exact ⟨.inl ⟨ha, no_point_of_fraction_declines hf⟩, hat, hstop, rfl⟩
  · rintro ⟨⟨ha, hpoint⟩ | ⟨a, b, ha, hb, rfl⟩, hat, hstop, rfl⟩
    · obtain ⟨u, w, rfl⟩ := List.exists_cons_of_ne_nil ha.1
      have hf : fraction.Declines s ⟨c.offset + (u :: w).length, c.depth⟩ :=
        fraction_declines (add_length_le hat hc) hpoint
      refine ⟨none, ⟨_, w, ⟨u, ha, hat, hstop, rfl⟩, .inr ⟨hf, rfl, rfl⟩⟩, ?_⟩
      rw [Cursor.sliceTo, slice_of_hasAt hat]
    · obtain ⟨u, w, rfl⟩ := List.exists_cons_of_ne_nil ha.1
      obtain ⟨v, f, rfl⟩ := List.exists_cons_of_ne_nil hb.1
      obtain ⟨haat, hbat⟩ := hasAt_append.1 hat
      have hp := (hasAt_cons.1 hbat).1
      have hf : fraction s ⟨c.offset + (u :: w).length, c.depth⟩ = .ok _ f :=
        (fraction_eq_ok (add_length_le haat hc)).2
          ⟨v, hb, hbat, by rwa [add_decimal_length], by rw [add_decimal_length]⟩
      refine ⟨some f, ⟨_, w, ⟨u, ha, haat, by rw [hp]; rfl, rfl⟩, .inl ⟨f, hf, rfl⟩⟩, ?_⟩
      rw [Cursor.sliceTo, slice_of_hasAt hat]

theorem numeral_eq_ok (hc : c.offset ≤ s.length) :
    numeral s c = .ok d t ↔
      IsNumeral t ∧ s.hasAt c.offset t = true ∧
        (∀ t', IsNumeral t' → s.hasAt c.offset t' = true → t'.length ≤ t.length) ∧
        ⟨c.offset + t.length, c.depth⟩ = d := by
  rw [numeral_reads hc]
  constructor
  · rintro ⟨⟨ha, hpoint⟩ | ⟨a, b, ha, hb, rfl⟩, hat, hstop, hd⟩
    · exact ⟨.whole ha, hat, fun t' => numeral_le_whole ha hat hstop hpoint, hd⟩
    · exact ⟨.decimal ha hb, hat, fun t' => numeral_le_decimal ha hat hstop, hd⟩
  · rintro ⟨ht, hat, hlong, hd⟩
    refine ⟨?_, hat, stop_of_longest ht hat hlong, hd⟩
    cases ht with
    | whole ha => exact .inl ⟨ha, no_point_of_longest ha hat hlong⟩
    | decimal ha hb => exact .inr ⟨_, _, ha, hb, rfl⟩

theorem number_eq_ok {e : Expr} (hc : c.offset ≤ s.length) :
    number s c = .ok d e ↔
      ∃ x, s.TokenAt c.offset (.number x) d.offset ∧ d.depth = c.depth ∧
        e = .number x (c.spanTo d s) := by
  rw [number]
  constructor
  · intro h
    split at h
    · cases h
    · next f t hn =>
      dsimp only at h
      split at h
      · next hfin =>
        cases h
        obtain ⟨ht, hat, hlong, rfl⟩ := (numeral_eq_ok hc).1 hn
        exact ⟨_, ⟨t, ⟨ht, rfl, hfin⟩, hat, rfl,
          fun t' ht' hat' => Nat.add_le_add_left (hlong t' ht' hat') _⟩, rfl, rfl⟩
      · cases h
  · rintro ⟨x, ⟨t, ⟨ht, rfl, hfin⟩, hat, hj, hlong⟩, hd, rfl⟩
    have hn : numeral s c = .ok d t := by
      refine (numeral_eq_ok hc).2 ⟨ht, hat, fun t' ht' hat' => ?_, ?_⟩
      · have := hlong t' ht' hat'
        omega
      · rw [← hj, ← hd]
    simp only [hn, hfin, ↓reduceIte]

theorem number_declines (h : (s.unit? c.offset).any CodeUnit.isDigit = false) :
    number.Declines s c := by
  have hsat : (satisfy CodeUnit.isDigit "number" *> takeWhile CodeUnit.isDigit *>
      optional (literal "." *> satisfy CodeUnit.isDigit "digit" *>
        takeWhile CodeUnit.isDigit)).Declines s c :=
    ((satisfy_declines h).seqRight _).seqRight _
  obtain ⟨f, hf, hcom⟩ := hsat
  refine ⟨f, ?_, hcom⟩
  simp only [number, numeral, consumed, hf]

end Grammar

namespace Source

variable {s : Source} {i j n : Nat} {t v : Text}

theorem escapeValue?_of_unit {w : CodeUnit}
    (h : (s.unit? i).bind escapeValue? = some w) :
    ∃ u, s.unit? i = some u ∧ escapeValue? u = some w := Option.bind_eq_some_iff.1 h

theorem spells_of_stringFrom (h : s.stringFrom n i = .ok (v, j)) :
    ∃ t, Spells t v ∧ s.hasAt i (t ++ [CodeUnit.quote]) = true ∧ j = i + t.length + 1 := by
  induction n generalizing i v with
  | zero => cases h
  | succ n ih =>
    rw [stringFrom] at h
    split at h
    · cases h
    · next u hu =>
      split at h
      · next hq =>
        cases h
        exact ⟨[], .nil, hasAt_cons.2 ⟨hq ▸ hu, rfl⟩, rfl⟩
      · next hq =>
        split at h
        · next hb =>
          split at h
          · cases h
          · next w hw =>
            split at h
            · next rest k hr =>
              cases h
              obtain ⟨u', hu', hw'⟩ := escapeValue?_of_unit hw
              obtain ⟨t, ht, hat, rfl⟩ := ih hr
              refine ⟨CodeUnit.backslash :: u' :: t, .escape hw' ht, ?_, ?_⟩
              · exact hasAt_cons.2 ⟨hb ▸ hu, hasAt_cons.2 ⟨hu', hat⟩⟩
              · simp only [List.length_cons]
                omega
            · cases h
        · next hb =>
          split at h
          · next rest k hr =>
            cases h
            obtain ⟨t, ht, hat, rfl⟩ := ih hr
            refine ⟨u :: t, .plain hq hb ht, hasAt_cons.2 ⟨hu, hat⟩, ?_⟩
            simp only [List.length_cons]
            omega
          · cases h

/-- What is scanned is put before what is read behind it, one step for each unit of the value. -/
theorem stringFrom_spells (h : Spells t v) (hat : s.hasAt i t = true) (n : Nat) :
    s.stringFrom (n + v.length) i =
      (s.stringFrom n (i + t.length)).map fun r => (v ++ r.1, r.2) := by
  induction h generalizing i with
  | nil => cases s.stringFrom n i <;> rfl
  | @plain u t v hq hb h ih =>
    obtain ⟨hu, hat⟩ := hasAt_cons.1 hat
    have hlen : i + (u :: t).length = i + 1 + t.length := by
      rw [List.length_cons, Nat.add_comm t.length, Nat.add_assoc]
    rw [List.length_cons, ← Nat.add_assoc, stringFrom, hlen]
    simp only [hu, hq, hb, ↓reduceIte, ih hat]
    cases s.stringFrom n (i + 1 + t.length) <;> rfl
  | @escape u w t v hw h ih =>
    obtain ⟨hu, hat⟩ := hasAt_cons.1 hat
    obtain ⟨hu', hat⟩ := hasAt_cons.1 hat
    have hlen : i + (CodeUnit.backslash :: u :: t).length = i + 2 + t.length := by
      rw [List.length_cons, List.length_cons]
      omega
    have hq : CodeUnit.backslash ≠ CodeUnit.quote := by decide
    rw [List.length_cons, ← Nat.add_assoc, stringFrom, hlen]
    simp only [hu, hq, hu', hw, Option.bind_some, ↓reduceIte, ih hat]
    cases s.stringFrom n (i + 2 + t.length) <;> rfl

theorem stringFrom_eq_ok (ht : Spells t v) (hat : s.hasAt i (t ++ [CodeUnit.quote]) = true)
    (hn : t.length < n) : s.stringFrom n i = .ok (v, i + t.length + 1) := by
  obtain ⟨hat, hend⟩ := hasAt_append.1 hat
  have hquote := (hasAt_cons.1 hend).1
  obtain ⟨m, rfl⟩ := Nat.exists_eq_add_of_le' (Nat.lt_of_le_of_lt ht.length_le hn)
  rw [Nat.succ_eq_add_one, ← Nat.add_assoc, Nat.add_right_comm, stringFrom_spells ht hat]
  simp only [stringFrom, hquote, ↓reduceIte, Except.map, List.append_nil]

/-- What is wrong inside of a string: it does not end, or it has an escape that is none. What stands
before that can be continued to the inside of a string. -/
theorem stringFrom_eq_error {f : Failure} (hi : i ≤ s.length) (hn : s.length < i + n)
    (h : s.stringFrom n i = .error f) :
    ∃ a b v, s.hasAt i a = true ∧ i + a.length = f.offset ∧ f.offset ≤ s.length ∧
      Spells (a ++ b) v ∧
      (f = { cause := .endOfInput "\"", offset := s.length, committed := true } ∨
        f = { cause := .token "escape sequence", offset := f.offset, committed := true }) := by
  induction n generalizing i with
  | zero => omega
  | succ n ih =>
    rw [stringFrom] at h
    split at h
    · next hu =>
      cases h
      have hlen : i = s.length := Nat.le_antisymm hi (length_le_of_unit? hu)
      exact ⟨[], [], [], rfl, rfl, hi, .nil, .inl (by rw [hlen])⟩
    · next u hu =>
      have hlt := lt_length_of_unit? hu
      split at h
      · cases h
      next hq =>
      split at h
      · next hb =>
        split at h
        · cases h
          have hescape : Spells ([CodeUnit.backslash] ++ [CodeUnit.of 'n']) [CodeUnit.of '\n'] :=
            .escape rfl .nil
          exact ⟨[CodeUnit.backslash], _, _, hasAt_cons.2 ⟨hb ▸ hu, rfl⟩, rfl, hlt, hescape,
            .inr rfl⟩
        · next w hw =>
          obtain ⟨u', hu', hw⟩ := escapeValue?_of_unit hw
          have hlt' := lt_length_of_unit? hu'
          split at h
          · cases h
          · next g hg =>
            cases h
            obtain ⟨a, b, v, hat, hlen, hle, hv, hf⟩ := ih hlt' (by omega) hg
            refine ⟨CodeUnit.backslash :: u' :: a, b, w :: v, ?_, ?_, hle, .escape hw hv, hf⟩
            · exact hasAt_cons.2 ⟨hb ▸ hu, hasAt_cons.2 ⟨hu', hat⟩⟩
            · rw [← hlen, List.length_cons, List.length_cons]
              omega
      · next hb =>
        split at h
        · cases h
        · next g hg =>
          cases h
          obtain ⟨a, b, v, hat, hlen, hle, hv, hf⟩ := ih hlt (by omega) hg
          refine ⟨u :: a, b, u :: v, hasAt_cons.2 ⟨hu, hat⟩, ?_, hle, .plain hq hb hv, hf⟩
          rw [← hlen, List.length_cons]
          omega

end Source

namespace Grammar

open BrookSyntax.Parser Source

variable {s : Source} {c d : Cursor}

theorem string_eq_ok {e : Expr} (hc : c.offset ≤ s.length) :
    string s c = .ok d e ↔
      ∃ v, s.TokenAt c.offset (.string v) d.offset ∧ d.depth = c.depth ∧
        e = .string v (c.spanTo d s) := by
  rw [string, Cursor.peek?]
  constructor
  · intro h
    split at h
    · next hq =>
      split at h
      · next v j hs =>
        cases h
        obtain ⟨t, ht, hat, rfl⟩ := spells_of_stringFrom hs
        refine ⟨v, ⟨CodeUnit.quote :: t ++ [CodeUnit.quote], ⟨t, ht, rfl⟩,
          hasAt_cons.2 ⟨hq, hat⟩, ?_, trivial⟩, rfl, rfl⟩
        simp only [List.cons_append, List.length_cons, List.length_append, List.length_nil]
        omega
      · cases h
    · cases h
  · rintro ⟨v, ⟨_, ⟨t, ht, rfl⟩, hat, hj, -⟩, hd, rfl⟩
    have hle := add_length_le hat hc
    rw [List.cons_append] at hat
    obtain ⟨hq, hat⟩ := hasAt_cons.1 hat
    simp only [List.cons_append, List.length_cons, List.length_append, List.length_nil] at hle hj
    have hs := stringFrom_eq_ok (n := s.length - c.offset) ht hat (by omega)
    have hk : c.offset + 1 + t.length + 1 = d.offset := by omega
    rw [if_pos hq, hs, hk, ← hd]

theorem string_declines (h : s.unit? c.offset ≠ some CodeUnit.quote) : string.Declines s c := by
  refine ⟨{ cause := .token "string", offset := c.offset }, ?_, rfl⟩
  rw [string, Cursor.peek?, if_neg h, fail]

theorem keyword_declines {w : Text}
    (h : s.hasAt c.offset w = true →
      (s.unit? (c.offset + w.length)).any CodeUnit.isWordPart = true) :
    (keyword w).Declines s c := literalBefore_declines h

theorem keyword_declines_of_first {w : Text} {u : CodeUnit} (hw : w.head? = some u)
    (h : s.unit? c.offset ≠ some u) : (keyword w).Declines s c := by
  apply keyword_declines
  intro hat
  cases w with
  | nil => cases hw
  | cons v w =>
    cases hw
    exact absurd (hasAt_cons.1 hat).1 h

/-- A word that stands at an offset is the only one there. -/
theorem keyword_declines_of_word {w w' : Text} {j : Nat} (hw' : IsWord w')
    (hat' : s.hasAt c.offset w' = true) (hj : j = c.offset + w'.length)
    (hstop : (s.unit? j).any CodeUnit.isWordPart = false) (hw : IsWord w) (hne : w ≠ w') :
    (keyword w).Declines s c := by
  apply keyword_declines
  intro hat
  cases hs : (s.unit? (c.offset + w.length)).any CodeUnit.isWordPart with
  | true => rfl
  | false =>
    subst hj
    exact absurd (run_unique hat hw.2 hs hat' hw'.2 hstop) hne

theorem identifier_declines_of_first
    (h : (s.unit? c.offset).any CodeUnit.isWordStart = false) : identifier.Declines s c := by
  have hfirst : (satisfy CodeUnit.isWordStart "identifier").Declines s c := satisfy_declines h
  obtain ⟨f, hf, hcom⟩ := hfirst.seqRight (takeWhile CodeUnit.isWordPart)
  refine ⟨f, ?_, hcom⟩
  simp only [identifier, word, consumed, hf]

theorem identifier_declines_of_keyword {w : Text} {j : Nat}
    (h : s.TokenAt c.offset (.keyword w) j) (hw : w ∈ keywords) : identifier.Declines s c := by
  obtain ⟨hat, hj, hstop⟩ := (tokenAt_keyword hw).1 h
  have hword : word s c = .ok _ w := word_eq_ok.2 ⟨keywords_isWord hw, hat, hj ▸ hstop, rfl⟩
  refine ⟨{ cause := .token "identifier", offset := c.offset }, ?_, rfl⟩
  simp only [identifier, hword, List.contains_eq_mem, hw, decide_true, ↓reduceIte, fail]

end Grammar

end BrookSyntax
