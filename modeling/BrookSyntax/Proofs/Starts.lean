import BrookSyntax.Proofs.Derivation

namespace BrookSyntax

namespace TokenKind

/-- How the text of a token of a kind may start. -/
def Starts : TokenKind → CodeUnit → Prop
  | keyword word, u | name word, u => word.head? = some u ∧ u.isWordStart
  | mark text, u => text.head? = some u
  | number _, u => u.isDigit
  | string _, u => u = CodeUnit.quote

theorem IsText.starts {kind : TokenKind} {t : Text} (h : kind.IsText t) :
    ∃ u rest, t = u :: rest ∧ kind.Starts u := by
  cases kind with
  | keyword w =>
    obtain ⟨rfl, hw⟩ := h
    obtain ⟨⟨u, rest, rfl, hu⟩, -⟩ := keywords_isWord hw
    exact ⟨u, rest, rfl, rfl, hu⟩
  | name w =>
    obtain ⟨rfl, ⟨⟨u, rest, rfl, hu⟩, -⟩, -⟩ := h
    exact ⟨u, rest, rfl, rfl, hu⟩
  | mark m =>
    obtain ⟨rfl, hm⟩ := h
    obtain ⟨u, rest, rfl, -⟩ := marks_first hm
    exact ⟨u, rest, rfl, rfl⟩
  | number x =>
    obtain ⟨hn, -⟩ := h
    have digits {t : Text} (h : IsDigits t) : ∃ u rest, t = u :: rest ∧ u.isDigit = true := by
      obtain ⟨hne, hall⟩ := h
      cases t with
      | nil => exact absurd rfl hne
      | cons u rest => exact ⟨u, rest, rfl, hall u List.mem_cons_self⟩
    cases hn with
    | whole hd => exact digits hd
    | @decimal a b ha hb =>
      obtain ⟨u, rest, rfl, hu⟩ := digits ha
      exact ⟨u, rest ++ CodeUnit.of '.' :: b, rfl, hu⟩
  | string v =>
    obtain ⟨inside, -, rfl⟩ := h
    exact ⟨CodeUnit.quote, inside ++ [CodeUnit.quote], rfl, rfl⟩

/-- A token of the kind may be the first one of an expression of a level. -/
def StartsExpr (n : Nat) : TokenKind → Prop
  | keyword word => word = "true" ∨ word = "false" ∨ word = "null"
  | mark text => text = "(" ∨ n ≤ 8 ∧ (text = "!" ∨ text = "-")
  | name _ | number _ | string _ => True

theorem StartsExpr.mono {kind : TokenKind} {m n : Nat} (h : kind.StartsExpr n) (hmn : m ≤ n) :
    kind.StartsExpr m := by
  cases kind with
  | mark text =>
    rcases h with h | ⟨hn, h⟩
    · exact .inl h
    · exact .inr ⟨Nat.le_trans hmn hn, h⟩
  | keyword word => exact h
  | name word => trivial
  | number value => trivial
  | string value => trivial

end TokenKind

theorem Source.TokenAt.first {s : Source} {i j : Nat} {kind : TokenKind}
    (h : s.TokenAt i kind j) : ∃ u, s.unit? i = some u ∧ kind.Starts u := by
  obtain ⟨t, ht, hat, -, -⟩ := h
  obtain ⟨u, rest, rfl, hu⟩ := ht.starts
  exact ⟨u, (hasAt_cons.1 hat).1, hu⟩

theorem Source.LexedAfter.starts {s : Source} {i j : Nat} {t : Token} {ts : List Token}
    {u : CodeUnit} (h : s.LexedAfter i (t :: ts) j) (hi : i ≤ s.length) (hu : s.unit? i = some u)
    (hn : s.NoTriviaAt i) : t.kind.Starts u := by
  obtain ⟨k, hk, -⟩ := h.uncons hi
  rw [hn.skip_eq hi] at hk
  obtain ⟨u', hu', hs⟩ := hk.first
  rw [hu, Option.some.injEq] at hu'
  rwa [hu']

namespace DerivesExpr

variable {k m n : Nat} {ts : List Token} {e : Expr}

theorem loosen (h : DerivesExpr k n ts e) (hm : 1 ≤ m) (hmn : m ≤ n) : DerivesExpr k m ts e := by
  induction hmn with
  | refl => exact h
  | step hle ih => exact ih (.tighter (Nat.le_trans hm hle) h)

theorem level_bounds (h : DerivesExpr k n ts e) : 1 ≤ n ∧ n ≤ 10 := by
  induction h using DerivesExpr.rec (motive_2 := fun _ _ _ _ => True)
    (motive_3 := fun _ _ _ _ => True) with
  | tighter hn h ih => exact ⟨hn, by omega⟩
  | @binary k n ts us left right op a hn hl hr ihl ihr => exact ihl
  | single | cons | none | some => trivial
  | _ => decide

theorem starts (h : DerivesExpr k n ts e) :
    ∃ t rest, ts = t :: rest ∧ t.kind.StartsExpr n := by
  induction h using DerivesExpr.rec (motive_2 := fun _ _ _ _ => True)
    (motive_3 := fun _ _ _ _ => True) with
  | number k value a => exact ⟨_, [], rfl, trivial⟩
  | string k value a => exact ⟨_, [], rfl, trivial⟩
  | true k a => exact ⟨_, [], rfl, .inl rfl⟩
  | false k a => exact ⟨_, [], rfl, .inr (.inl rfl)⟩
  | null k a => exact ⟨_, [], rfl, .inr (.inr rfl)⟩
  | name k word a => exact ⟨_, [], rfl, trivial⟩
  | group a b h ih => exact ⟨_, _, rfl, .inl rfl⟩
  | call a b hc ha ih _ =>
    obtain ⟨t, rest, rfl, ht⟩ := ih
    exact ⟨t, _, rfl, ht⟩
  | unary op a h ih =>
    refine ⟨_, _, rfl, .inr ⟨Nat.le_refl 8, ?_⟩⟩
    cases op with
    | not => exact .inl rfl
    | neg => exact .inr rfl
  | binary a hn hl hr ihl ihr =>
    obtain ⟨t, rest, rfl, ht⟩ := ihl
    exact ⟨t, _, rfl, ht⟩
  | assign word a b h ih => exact ⟨_, _, rfl, trivial⟩
  | tighter hn h ih =>
    obtain ⟨t, rest, rfl, ht⟩ := ih
    exact ⟨t, rest, rfl, ht.mono (Nat.le_succ _)⟩
  | single | cons | none | some => trivial

end DerivesExpr

end BrookSyntax
