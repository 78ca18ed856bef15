import BrookSyntax.Proofs.Inversion

namespace BrookSyntax

open BrookSyntax.Parser Source

/-- A token of the kind does not go on with an expression of a level. -/
def TokenKind.Stops (n : Nat) : TokenKind → Prop
  | mark text =>
    (n ≤ 9 → text ≠ "(") ∧ (∀ op : BinaryOp, n ≤ op.precedence → text ≠ op.symbol) ∧
      (n ≤ 1 → text ≠ "=")
  | _ => True

/-- After an offset there is nothing left, or a token that does not go on with an expression of a
level. -/
def Source.Stops (s : Source) (n j : Nat) : Prop :=
  s.skip j = s.length ∨ ∃ kind k, s.TokenAt (s.skip j) kind k ∧ kind.Stops n

theorem TokenKind.Stops.mono {kind : TokenKind} {m n : Nat} (h : kind.Stops m) (hmn : m ≤ n) :
    kind.Stops n := by
  cases kind with
  | mark text =>
    obtain ⟨hcall, hop, hsign⟩ := h
    exact ⟨fun hn => hcall (Nat.le_trans hmn hn), fun op hn => hop op (Nat.le_trans hmn hn),
      fun hn => hsign (Nat.le_trans hmn hn)⟩
  | keyword word => trivial
  | name word => trivial
  | number value => trivial
  | string value => trivial

theorem Source.Stops.mono {s : Source} {m n j : Nat} (h : s.Stops m j) (hmn : m ≤ n) :
    s.Stops n j := by
  rcases h with h | ⟨kind, k, ht, h⟩
  · exact .inl h
  · exact .inr ⟨kind, k, ht, h.mono hmn⟩

theorem TokenKind.stops_of_mem {m : Text} (h : m ∈ ([")", ",", ";", "\x7b"] : List Text))
    (n : Nat) : (TokenKind.mark m).Stops n := by
  have hop : ∀ m ∈ ([")", ",", ";", "\x7b"] : List Text), m ≠ "(" ∧ m ∉ BinaryOp.all.map
    BinaryOp.symbol ∧ m ≠ "=" := by decide
  obtain ⟨hcall, hnot, hsign⟩ := hop m h
  refine ⟨fun _ => hcall, ?_, fun _ => hsign⟩
  rintro op - rfl
  apply hnot
  cases op <;> decide

theorem BinaryOp.stops {op : BinaryOp} {n : Nat} (h : op.precedence < n) :
    (TokenKind.mark op.symbol).Stops n := by
  refine ⟨fun _ => ?_, ?_, ?_⟩
  · cases op <;> decide
  · intro op' h' heq
    rw [symbol_injective heq] at h
    omega
  · intro hn
    have := op.precedence_bounds
    omega

namespace Source

variable {s : Source} {i j : Nat} {kind : TokenKind} {m : Text}

theorem marks_firstUnit {u : CodeUnit} (hm : m ∈ marks) (hu : m.head? = some u) :
    u.isWordStart = false ∧ u.isDigit = false ∧ u ≠ CodeUnit.quote := by
  have hall : ∀ m ∈ marks, m.head?.any (fun u => u.isWordStart || u.isDigit ||
    u == CodeUnit.quote) = false := by decide
  have hnot := hall m hm
  rw [hu] at hnot
  simpa only [Option.any_some, Bool.or_eq_false_iff, beq_eq_false_iff_ne, and_assoc] using hnot

/-- The first unit of a token tells its kind, marks apart. -/
theorem TokenAt.firstUnit {u : CodeUnit} (h : s.TokenAt i kind j) (hu : s.unit? i = some u) :
    (u.isWordStart = true → (∃ w, kind = .keyword w) ∨ ∃ w, kind = .name w) ∧
      (u.isDigit = true → ∃ x, kind = .number x) ∧
      (u = CodeUnit.quote → ∃ x, kind = .string x) := by
  obtain ⟨v, hv, hs⟩ := h.first
  rw [hu] at hv
  cases hv
  have word_digit (hw : u.isWordStart = true) : u.isDigit ≠ true := by
    intro hd
    have hw := (CodeUnit.isWordStart_iff u).1 hw
    have hd := (CodeUnit.isDigit_iff u).1 hd
    omega
  cases kind with
  | keyword w =>
    refine ⟨fun _ => .inl ⟨w, rfl⟩, fun hd => absurd hd (word_digit hs.2), ?_⟩
    rintro rfl
    exact absurd hs.2 (by decide)
  | name w =>
    refine ⟨fun _ => .inr ⟨w, rfl⟩, fun hd => absurd hd (word_digit hs.2), ?_⟩
    rintro rfl
    exact absurd hs.2 (by decide)
  | number x =>
    refine ⟨fun hw => absurd hs (word_digit hw), fun _ => ⟨x, rfl⟩, ?_⟩
    rintro rfl
    have hd : CodeUnit.quote.isDigit = true := hs
    exact absurd hd (by decide)
  | string x =>
    obtain rfl : u = CodeUnit.quote := hs
    exact ⟨fun hw => absurd hw (by decide), fun hd => absurd hd (by decide), fun _ => ⟨x, rfl⟩⟩
  | mark m =>
    obtain ⟨t, ⟨rfl, hm⟩, -⟩ := h
    obtain ⟨hword, hdigit, hquote⟩ := marks_firstUnit hm hs
    exact ⟨fun hw => absurd hw (by simp [hword]), fun hd => absurd hd (by simp [hdigit]),
      fun hq => absurd hq hquote⟩

/-- A mark stands at the start of a token only if the token is a mark that starts with it. -/
theorem TokenAt.mark_of_hasAt (h : s.TokenAt i kind j) (hm : m ∈ marks) (hat : s.hasAt i m) :
    ∃ m', kind = .mark m' ∧ m' ∈ marks ∧ m <+: m' := by
  obtain ⟨u, hu, hs⟩ := h.first
  obtain ⟨v, rest, rfl, -⟩ := marks_first hm
  rw [(hasAt_cons.1 hat).1] at hu
  cases hu
  obtain ⟨hword, hdigit, hquote⟩ := marks_firstUnit hm rfl
  cases kind with
  | keyword w | name w => exact absurd hs.2 (by simp [hword])
  | number x =>
    have hs : u.isDigit = true := hs
    exact absurd hs (by simp [hdigit])
  | string x => exact absurd hs hquote
  | mark m' =>
    have hat' := h.hasAt_mark.1
    have hle : (u :: rest).length ≤ m'.length := by
      apply Nat.le_of_not_lt
      intro hlt
      rw [h.mark_longest hm hlt] at hat
      cases hat
    obtain ⟨t, ⟨rfl, hmem⟩, -⟩ := h
    exact ⟨t, rfl, hmem, isPrefix_of_hasAt hat hat' hle⟩

theorem TokenAt.not_hasAt (h : s.TokenAt i kind j) (hm : PlainMark m) (hne : kind ≠ .mark m) :
    s.hasAt i m = false := by
  rw [Bool.eq_false_iff]
  intro hat
  obtain ⟨m', rfl, hm', hpre⟩ := h.mark_of_hasAt hm.1 hat
  exact hne (congrArg TokenKind.mark (hm.2.1 m' hm' hpre))

theorem Stops.not_call {n : Nat} (h : s.Stops n j) (hn : n ≤ 9) :
    s.hasAt (s.skip j) "(" = false := by
  rcases h with h | ⟨kind, k, ht, hs⟩
  · rw [Bool.eq_false_iff]
    intro hat
    have := lt_length_of_unit? (hasAt_cons.1 hat).1
    omega
  · apply ht.not_hasAt (by decide)
    rintro rfl
    exact hs.1 hn rfl

theorem Stops.not_operator {n : Nat} (h : s.Stops n j) {op : BinaryOp} (hn : n ≤ op.precedence) :
    s.hasAt (s.skip j) op.symbol = false := by
  rw [Bool.eq_false_iff]
  intro hat
  rcases h with h | ⟨kind, k, ht, hs⟩
  · obtain ⟨u, rest, hsym, -⟩ := marks_first op.symbol_mem
    rw [hsym] at hat
    have := lt_length_of_unit? (hasAt_cons.1 hat).1
    omega
  · obtain ⟨m', rfl, hm', hpre⟩ := ht.mark_of_hasAt op.symbol_mem hat
    obtain rfl | rfl := marks_extension op.symbol_mem hm' hpre
    · exact hs.2.1 op hn rfl
    -- An operator that goes on with another sign is of the same level as the longer one.
    · have hlong : ∀ op : BinaryOp, op.symbol ++ Text.ofString "=" ∈ marks →
          ∃ op' : BinaryOp, op'.symbol = op.symbol ++ Text.ofString "=" ∧
            op'.precedence = op.precedence := by
        intro op
        cases op with
        | lt => exact fun _ => ⟨.le, rfl, rfl⟩
        | gt => exact fun _ => ⟨.ge, rfl, rfl⟩
        | _ => exact fun h => absurd h (by decide)
      obtain ⟨op', hsym, hprec⟩ := hlong op hm'
      exact hs.2.1 op' (hprec ▸ hn) hsym.symm

theorem Stops.not_sign (h : s.Stops 1 j) (k : Nat) : ¬ s.TokenAt (s.skip j) (.mark "=") k := by
  intro hsign
  rcases h with h | ⟨kind, k, ht, hs⟩
  · have := lt_length_of_unit? (hasAt_cons.1 hsign.hasAt_mark.1).1
    omega
  · obtain ⟨m', rfl, hm', hpre⟩ := ht.mark_of_hasAt (by decide) hsign.hasAt_mark.1
    obtain rfl := ht.mark_unique hsign
    exact hs.2.2 (Nat.le_refl 1) rfl

end Source

namespace Grammar

variable {s : Source} {c : Cursor} {j : Nat} {kind : TokenKind} {inner : InnerExpr}

theorem literal_declines_at {m : Text} (h : s.TokenAt c.offset kind j) (hm : PlainMark m)
    (hne : kind ≠ .mark m) : (literal m).Declines s c := literal_declines (h.not_hasAt hm hne)

theorem keyword_declines_at {w : Text} (h : s.TokenAt c.offset kind j) (hw : w ∈ keywords)
    (hne : kind ≠ .keyword w) : (keyword w).Declines s c := by
  obtain ⟨⟨u, rest, rfl, hu⟩, -⟩ := keywords_isWord hw
  by_cases hat : s.unit? c.offset = some u
  · obtain ⟨w', rfl⟩ | ⟨w', rfl⟩ := (h.firstUnit hat).1 hu
    · obtain ⟨t, ⟨rfl, hw'⟩, hat', rfl, he⟩ := h
      exact keyword_declines_of_word (keywords_isWord hw') hat' rfl he (keywords_isWord hw)
        fun heq => hne (by rw [heq])
    · obtain ⟨t, ⟨rfl, hword, hnot⟩, hat', rfl, he⟩ := h
      exact keyword_declines_of_word hword hat' rfl he (keywords_isWord hw)
        fun heq => hnot (heq ▸ hw)
  · exact keyword_declines_of_first rfl hat

theorem identifier_declines_at (h : s.TokenAt c.offset kind j) (hne : ∀ w, kind ≠ .name w) :
    identifier.Declines s c := by
  obtain ⟨u, hu, -⟩ := h.first
  cases hw : u.isWordStart with
  | false =>
    apply identifier_declines_of_first
    rw [hu, Option.any_some, hw]
  | true =>
    obtain ⟨w, rfl⟩ | ⟨w, rfl⟩ := (h.firstUnit hu).1 hw
    · have hmem : w ∈ keywords := by
        obtain ⟨t, ⟨rfl, hmem⟩, -⟩ := h
        exact hmem
      exact identifier_declines_of_keyword h hmem
    · exact absurd rfl (hne w)

theorem name_declines_at (h : s.TokenAt c.offset kind j) (hne : ∀ w, kind ≠ .name w) :
    name.Declines s c := (identifier_declines_at h hne).mapSpan _

theorem number_declines_at (h : s.TokenAt c.offset kind j) (hne : ∀ x, kind ≠ .number x) :
    number.Declines s c := by
  obtain ⟨u, hu, -⟩ := h.first
  apply number_declines
  rw [hu, Option.any_some, Bool.eq_false_iff]
  intro hd
  obtain ⟨x, rfl⟩ := (h.firstUnit hu).2.1 hd
  exact hne x rfl

theorem string_declines_at (h : s.TokenAt c.offset kind j) (hne : ∀ x, kind ≠ .string x) :
    string.Declines s c := by
  apply string_declines
  intro hu
  obtain ⟨x, rfl⟩ := (h.firstUnit hu).2.2 rfl
  exact hne x rfl

theorem constant_declines_at (h : s.TokenAt c.offset kind j)
    (hne : ∀ w ∈ (["true", "false", "null"] : List Text), kind ≠ .keyword w) :
    constant.Declines s c := by
  apply Declines.choice
  simp only [List.forall_mem_cons, List.not_mem_nil, false_implies, implies_true, and_true] at hne ⊢
  obtain ⟨htrue, hfalse, hnull⟩ := hne
  refine ⟨?_, ?_, ?_⟩
  · exact (keyword_declines_at h (by decide) htrue).mapSpan _
  · exact (keyword_declines_at h (by decide) hfalse).mapSpan _
  · exact (keyword_declines_at h (by decide) hnull).mapSpan _

theorem unaryOp_declines_at (h : s.TokenAt c.offset kind j)
    (hne : ∀ op : UnaryOp, ∀ m, op.symbol <+: m → kind ≠ .mark m) : unaryOp.Declines s c := by
  apply choice_literals_declines
  intro op hop
  rw [Bool.eq_false_iff]
  intro hat
  obtain ⟨m', rfl, -, hpre⟩ := h.mark_of_hasAt op.symbol_mem hat
  exact hne op m' hpre rfl

theorem assignment_declines_at {m : Text} (h : s.TokenAt c.offset (.mark m) j)
    (hm : m = ")" ∨ m = ";") : (assignment inner).Declines s c := by
  have hname : name.Declines s c := name_declines_at h (fun _ h => nomatch h)
  have hparen : m ≠ "(" := by rcases hm with rfl | rfl <;> decide
  have hop : ∀ op : UnaryOp, ∀ m', op.symbol <+: m' → TokenKind.mark m ≠ .mark m' := by
    rintro op m' hpre ⟨⟩
    have hnot : ∀ op ∈ UnaryOp.all, ¬ op.symbol <+: m := by rcases hm with rfl | rfl <;> decide
    exact hnot op (by cases op <;> decide) hpre
  have hprimary : (primary inner).Declines s c := by
    apply Declines.choice
    simp only [List.forall_mem_cons, List.not_mem_nil, false_implies, implies_true, and_true]
    refine ⟨?_, ?_, ?_, ?_, ?_⟩
    · exact number_declines_at h (fun _ h => nomatch h)
    · exact string_declines_at h (fun _ h => nomatch h)
    · exact constant_declines_at h (fun _ _ h => nomatch h)
    · exact hname.map _
    · refine (literal_declines_at h (by decide) ?_).seqRight _
      rintro ⟨⟩
      exact hparen rfl
  have hunary : (unary inner).Declines s c := by
    apply Declines.describedAs
    apply Declines.choice
    simp only [List.forall_mem_cons, List.not_mem_nil, false_implies, implies_true, and_true]
    constructor
    · exact ((unaryOp_declines_at h hop).bind _).mapSpan _
    · exact hprimary.bind _
  have hbinaries : (binaries inner).Declines s c :=
    (((((hunary.bind _).bind _).bind _).bind _).bind _).bind _
  apply Declines.describedAs
  apply Declines.choice
  simp only [List.forall_mem_cons, List.not_mem_nil, false_implies, implies_true, and_true]
  constructor
  · exact (hname.bind _).mapSpan _
  · exact hbinaries

end Grammar

end BrookSyntax
