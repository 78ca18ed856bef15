import BrookSyntax.Proofs.Printing
import BrookSyntax.Proofs.Lookahead

namespace BrookSyntax

open Source

/-- The token of a kind is one of the language. -/
def TokenKind.Lexical : TokenKind → Prop
  | keyword word => word ∈ keywords
  | name word => IsName word
  | mark text => text ∈ marks
  | number _ | string _ => True

instance (kind : TokenKind) : Decidable kind.Lexical :=
  match kind with
  | .keyword word => inferInstanceAs (Decidable (word ∈ keywords))
  | .name word => inferInstanceAs (Decidable (IsName word))
  | .mark text => inferInstanceAs (Decidable (text ∈ marks))
  | .number _ | .string _ => inferInstanceAs (Decidable True)

theorem CodeUnit.spells_escaped {t v : Text} (u : CodeUnit) (h : Spells t v) :
    Spells (u.escaped ++ t) (u :: v) := by
  rw [escaped]
  split
  · next hu =>
    subst hu
    exact .escape rfl h
  split
  · next hu =>
    subst hu
    exact .escape rfl h
  split
  · next hu =>
    subst hu
    exact .escape rfl h
  split
  · next hu =>
    subst hu
    exact .escape rfl h
  split
  · next hu =>
    subst hu
    exact .escape rfl h
  split
  · next hu =>
    subst hu
    exact .escape rfl h
  · next hquote hbackslash _ => exact .plain hquote hbackslash h

theorem Text.spells_escaped (v : Text) : Spells v.escaped v := by
  induction v with
  | nil => exact .nil
  | cons u v ih => exact u.spells_escaped ih

theorem TokenKind.Writes.isText {kind : TokenKind} {t : Text} (h : kind.Writes t)
    (hk : kind.Lexical) : kind.IsText t := by
  cases kind with
  | keyword w => exact ⟨h, hk⟩
  | name w => exact ⟨h, hk⟩
  | mark m => exact ⟨h, hk⟩
  | number x => exact h
  | string v => exact ⟨v.escaped, v.spells_escaped, h⟩

theorem IsDigits.no_space {t : Text} (h : IsDigits t) : CodeUnit.space ∉ t := by
  intro hm
  exact absurd (h.2 _ hm) (by decide)

theorem IsNumeral.no_space {t : Text} (h : IsNumeral t) : CodeUnit.space ∉ t := by
  cases h with
  | whole h => exact h.no_space
  | decimal ht hu =>
    intro hm
    rcases List.mem_append.1 hm with hm | hm
    · exact ht.no_space hm
    · rcases List.mem_cons.1 hm with hm | hm
      · exact absurd hm (by decide)
      · exact hu.no_space hm

namespace Source

variable {s : Source} {i j : Nat} {t t' : Text}

/-- A text without spaces ends where a space or the end of the source is. -/
theorem length_le_of_space (hstop : ∀ u, s.unit? (i + t.length) = some u → u = CodeUnit.space)
    (hat : s.hasAt i t') (hno : CodeUnit.space ∉ t') : t'.length ≤ t.length := by
  apply Nat.le_of_not_lt
  intro hlt
  have hu := unit?_of_hasAt hat hlt
  have he := hstop _ hu
  rw [← he] at hno
  exact hno (List.getElem_mem hlt)

theorem tokenAt_of_space {kind : TokenKind} (hk : kind.IsText t) (hat : s.hasAt i t)
    (hstop : ∀ u, s.unit? (i + t.length) = some u → u = CodeUnit.space) :
    s.TokenAt i kind (i + t.length) := by
  refine ⟨t, hk, hat, rfl, ?_⟩
  have hword : (s.unit? (i + t.length)).any CodeUnit.isWordPart = false := by
    cases hu : s.unit? (i + t.length) with
    | none => rfl
    | some u =>
      rw [hstop u hu]
      rfl
  cases kind with
  | keyword w => exact hword
  | name w => exact hword
  | mark m =>
    constructor
    · intro m' hm' hat'
      have hno : ∀ m ∈ marks, CodeUnit.space ∉ m := by decide
      have := length_le_of_space hstop hat' (hno m' hm')
      omega
    · rw [Bool.eq_false_iff]
      intro hslashes
      have hle := length_le_of_space hstop hslashes (by decide)
      have hno : ∀ m ∈ marks, ¬ Text.ofString "//" <+: m := by decide
      obtain ⟨rfl, hm⟩ := hk
      exact hno t hm (isPrefix_of_hasAt hslashes hat hle)
  | number x =>
    intro t' ht' hat'
    have := length_le_of_space hstop hat' ht'.no_space
    omega
  | string v => trivial

theorem triviaAt_space (h : s.unit? i = some CodeUnit.space) : s.TriviaAt i (i + 1) :=
  .space h rfl (.refl _)

/-- Where texts of tokens stand up to the end of the source with spaces between them, the tokens
stand. -/
theorem lexedAfter_of_texts {kinds : List TokenKind} {texts : List Text}
    (h : List.Forall₂ TokenKind.Writes kinds texts) (hk : ∀ kind ∈ kinds, kind.Lexical)
    (hat : s.hasAt i (Text.join [CodeUnit.space] texts))
    (hend : i + (Text.join [CodeUnit.space] texts).length = s.length) :
    ∃ ts : List Token, ts.map Token.kind = kinds ∧ s.LexedAfter i ts s.length := by
  induction h generalizing i with
  | nil => exact ⟨[], rfl, .inl ⟨rfl, hend⟩⟩
  | @cons kind t kinds texts hw hs ih =>
    have htext := hw.isText (hk kind List.mem_cons_self)
    cases hs with
    | nil =>
      have hjoin : Text.join [CodeUnit.space] [t] = t := List.intercalate_singleton
      rw [hjoin] at hat hend
      have htoken : s.TokenAt i kind (i + t.length) := by
        apply tokenAt_of_space htext hat
        intro u hu
        have := lt_length_of_unit? hu
        omega
      rw [hend] at htoken
      exact ⟨_, rfl, LexedAt.after_here (.single htoken)⟩
    | @cons kind' t' kinds texts hw' hs =>
      have hjoin : Text.join [CodeUnit.space] (t :: t' :: texts) =
          t ++ CodeUnit.space :: Text.join [CodeUnit.space] (t' :: texts) := by
        rw [Text.join, List.intercalate_cons_cons, List.append_assoc]
        rfl
      rw [hjoin] at hat hend
      obtain ⟨hat, hrest⟩ := hasAt_append.1 hat
      obtain ⟨hspace, hrest⟩ := hasAt_cons.1 hrest
      simp only [List.length_append, List.length_cons] at hend
      have htoken : s.TokenAt i kind (i + t.length) := by
        apply tokenAt_of_space htext hat
        intro u hu
        rw [hspace] at hu
        exact (Option.some.inj hu).symm
      obtain ⟨ts, hts, hl⟩ := ih (fun k hm => hk k (List.mem_cons_of_mem _ hm)) hrest (by omega)
      have hne : ts ≠ [] := by
        rintro rfl
        cases hts
      obtain ⟨he, -⟩ | ⟨m, ht, hl⟩ := hl
      · exact absurd he hne
      · have htrivia := (triviaAt_space hspace).trans ht
        refine ⟨_ :: ts, ?_, LexedAt.after_here (.cons htoken htrivia hl)⟩
        rw [List.map_cons, hts]

end Source

theorem List.forall_mem_intercalate {α : Type} {P : α → Prop} {sep : α} {xss : List (List α)}
    (hsep : P sep) (h : ∀ xs ∈ xss, ∀ x ∈ xs, P x) : ∀ x ∈ [sep].intercalate xss, P x := by
  induction xss with
  | nil => simp
  | cons xs xss ih =>
    cases xss with
    | nil => simpa using h
    | cons ys xss =>
      have hrest := ih fun zs hz => h zs (List.mem_cons_of_mem _ hz)
      rw [List.intercalate_cons_cons]
      intro x hx
      rcases List.mem_append.1 hx with hx | hx
      · rcases List.mem_append.1 hx with hx | hx
        · exact h xs List.mem_cons_self x hx
        · exact List.mem_singleton.1 hx ▸ hsep
      · exact hrest x hx

theorem List.forall_mem_closed {α : Type} {P : α → Prop} {a b : α} {xs : List α} (ha : P a)
    (hb : P b) (h : ∀ x ∈ xs, P x) : ∀ x ∈ a :: (xs ++ [b]), P x := by
  simp only [List.forall_mem_cons, List.forall_mem_append, List.not_mem_nil, false_implies,
    implies_true, and_true]
  exact ⟨ha, h, hb⟩

namespace Expr

theorem placed_lexical {n : Nat} {e : Expr} {ts : List TokenKind}
    (h : ∀ kind ∈ ts, kind.Lexical) : ∀ kind ∈ e.placed n ts, kind.Lexical := by
  rw [placed]
  split
  · exact List.forall_mem_closed (by decide) (by decide) h
  · exact h

theorem binary_symbol_lexical (op : BinaryOp) : (TokenKind.mark op.symbol).Lexical :=
  op.symbol_mem

theorem unary_symbol_lexical (op : UnaryOp) : (TokenKind.mark op.symbol).Lexical :=
  op.symbol_mem

mutual

theorem tokens_lexical (e : Expr) (h : e.WellNamed) : ∀ kind ∈ e.tokens, kind.Lexical := by
  cases e with
  | number value a =>
    rw [tokens, List.forall_mem_singleton]
    trivial
  | string value a =>
    rw [tokens, List.forall_mem_singleton]
    trivial
  | bool value a =>
    rw [tokens, List.forall_mem_singleton]
    cases value <;> decide
  | null a =>
    rw [tokens, List.forall_mem_singleton]
    decide
  | name n =>
    rw [tokens, List.forall_mem_singleton]
    exact h
  | unary op operand a =>
    rw [tokens, List.forall_mem_cons]
    exact ⟨unary_symbol_lexical op, placed_lexical (operand.tokens_lexical h)⟩
  | binary op left right a =>
    obtain ⟨hl, hr⟩ := h
    rw [tokens, List.forall_mem_append, List.forall_mem_cons]
    exact ⟨placed_lexical (left.tokens_lexical hl), binary_symbol_lexical op,
      placed_lexical (right.tokens_lexical hr)⟩
  | assign target value a =>
    obtain ⟨hname, hv⟩ := h
    rw [tokens, List.forall_mem_cons, List.forall_mem_cons]
    exact ⟨hname, by decide, value.tokens_lexical hv⟩
  | call callee args a =>
    obtain ⟨hc, hs⟩ := h
    have hargs : ∀ kind ∈ [TokenKind.mark ","].intercalate (allTokens args), kind.Lexical :=
      List.forall_mem_intercalate (by decide) (allTokens_lexical args hs)
    rw [tokens, List.forall_mem_append]
    exact ⟨placed_lexical (callee.tokens_lexical hc),
      List.forall_mem_closed (by decide) (by decide) hargs⟩

theorem allTokens_lexical (es : List Expr) (h : AllWellNamed es) :
    ∀ ts ∈ allTokens es, ∀ kind ∈ ts, kind.Lexical := by
  cases es with
  | nil =>
    intro ts hts
    cases hts
  | cons e es =>
    obtain ⟨he, hes⟩ := h
    rw [allTokens, List.forall_mem_cons]
    exact ⟨e.tokens_lexical he, allTokens_lexical es hes⟩

end

end Expr

section Statements

variable (chained : Block → Bool)

theorem braces_lexical {ts : List TokenKind} (h : ∀ kind ∈ ts, kind.Lexical) :
    ∀ kind ∈ TokenKind.mark "\x7b" :: (ts ++ [.mark "\x7d"]), kind.Lexical :=
  List.forall_mem_closed (by decide) (by decide) h

theorem semicolon_lexical {ts : List TokenKind} (h : ∀ kind ∈ ts, kind.Lexical) :
    ∀ kind ∈ ts ++ [TokenKind.mark ";"], kind.Lexical := by
  rw [List.forall_mem_append, List.forall_mem_singleton]
  exact ⟨h, by decide⟩

mutual

theorem Block.tokens_lexical (body : Block) (h : body.WellFormed) :
    ∀ kind ∈ body.tokens chained, kind.Lexical := by
  obtain ⟨stmts, a⟩ := body
  exact Stmt.allTokens_lexical stmts h

theorem Block.elseTokens_lexical (body : Option Block) (h : Block.OptionWellFormed body) :
    ∀ kind ∈ Block.elseTokens chained body, kind.Lexical := by
  cases body with
  | none =>
    intro kind hk
    cases hk
  | some body =>
    rw [Block.elseTokens, List.forall_mem_cons]
    refine ⟨by decide, ?_⟩
    split
    · exact body.tokens_lexical h
    · exact braces_lexical (body.tokens_lexical h)

theorem Stmt.tokens_lexical (stmt : Stmt) (h : stmt.WellFormed) :
    ∀ kind ∈ stmt.tokens chained, kind.Lexical := by
  cases stmt with
  | block body =>
    rw [Stmt.tokens]
    exact braces_lexical (body.tokens_lexical h)
  | conditional condition thenBlock elseBlock a =>
    obtain ⟨hc, ht, he⟩ := h
    rw [Stmt.tokens, List.forall_mem_cons, List.forall_mem_append, List.forall_mem_append]
    exact ⟨by decide, condition.tokens_lexical hc, braces_lexical (thenBlock.tokens_lexical ht),
      Block.elseTokens_lexical elseBlock he⟩
  | whileLoop condition body a =>
    obtain ⟨hc, hb⟩ := h
    rw [Stmt.tokens, List.forall_mem_cons, List.forall_mem_append]
    exact ⟨by decide, condition.tokens_lexical hc, braces_lexical (body.tokens_lexical hb)⟩
  | loop body a =>
    rw [Stmt.tokens, List.forall_mem_cons]
    exact ⟨by decide, braces_lexical (body.tokens_lexical h)⟩
  | breakLoop a =>
    rw [Stmt.tokens]
    decide
  | continueLoop a =>
    rw [Stmt.tokens]
    decide
  | returnValue value a =>
    rw [Stmt.tokens, List.forall_mem_cons]
    refine ⟨by decide, semicolon_lexical ?_⟩
    cases value with
    | none =>
      intro kind hk
      cases hk
    | some value => exact value.tokens_lexical h
  | binding name isMutable init a =>
    obtain ⟨hname, -, hi⟩ := h
    rw [Stmt.tokens, List.forall_mem_cons, List.forall_mem_cons]
    refine ⟨by cases isMutable <;> decide, hname, semicolon_lexical ?_⟩
    cases init with
    | none =>
      intro kind hk
      cases hk
    | some value =>
      rw [Option.elim_some, List.forall_mem_cons]
      exact ⟨by decide, value.tokens_lexical hi⟩
  | function name params body a =>
    obtain ⟨hname, hparams, hb⟩ := h
    have hwords : ∀ kind ∈ [TokenKind.mark ","].intercalate
        (params.map fun word => [TokenKind.name word]), kind.Lexical := by
      refine List.forall_mem_intercalate (by decide) fun ts hts => ?_
      obtain ⟨word, hw, rfl⟩ := List.mem_map.1 hts
      rw [List.forall_mem_singleton]
      exact hparams word hw
    rw [Stmt.tokens, List.forall_mem_cons, List.forall_mem_cons, List.forall_mem_cons,
      List.forall_mem_append, List.forall_mem_cons]
    exact ⟨by decide, hname, by decide, hwords, by decide,
      braces_lexical (body.tokens_lexical hb)⟩
  | expression value a =>
    rw [Stmt.tokens]
    exact semicolon_lexical (value.tokens_lexical h)

theorem Stmt.allTokens_lexical (stmts : List Stmt) (h : Stmt.AllWellFormed stmts) :
    ∀ kind ∈ Stmt.allTokens chained stmts, kind.Lexical := by
  cases stmts with
  | nil =>
    intro kind hk
    cases hk
  | cons stmt stmts =>
    obtain ⟨hst, hs⟩ := h
    rw [Stmt.allTokens, List.forall_mem_append]
    exact ⟨stmt.tokens_lexical hst, Stmt.allTokens_lexical stmts hs⟩

end

theorem Program.tokens_lexical (p : Program) (h : p.WellFormed) :
    ∀ kind ∈ p.tokens chained, kind.Lexical :=
  Stmt.allTokens_lexical chained p.statements h

end Statements

end BrookSyntax
