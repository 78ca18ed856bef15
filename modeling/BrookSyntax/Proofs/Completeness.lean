import BrookSyntax.Proofs.ExprCompleteness
import BrookSyntax.Proofs.Soundness

namespace BrookSyntax

open BrookSyntax.Parser Source

/-- No `else` follows an offset. -/
def Source.NoElse (s : Source) (j : Nat) : Prop :=
  ∀ depth : Int, (keyword "else").Declines s ⟨s.skip j, depth⟩

theorem TokenKind.StartsStmt.ne_else {kind : TokenKind} (h : kind.StartsStmt) :
    kind ≠ .keyword "else" := by
  rintro rfl
  exact h rfl

theorem TokenKind.StartsStmt.ne_brace {kind : TokenKind} (h : kind.StartsStmt) :
    kind ≠ .mark "\x7d" := by
  rintro rfl
  rcases h with h | h | h | h <;> exact absurd h (by decide)

theorem TokenKind.StartsExpr.ne_keyword {kind : TokenKind} {n : Nat} (h : kind.StartsExpr n)
    {w : Text} (hw : w ∉ (["true", "false", "null"] : List Text)) : kind ≠ .keyword w := by
  rintro rfl
  apply hw
  rcases h with rfl | rfl | rfl <;> decide

theorem TokenKind.StartsExpr.ne_open {kind : TokenKind} {n : Nat} (h : kind.StartsExpr n) :
    kind ≠ .mark "\x7b" := by
  rintro rfl
  rcases h with h | ⟨-, h | h⟩ <;> exact absurd h (by decide)

theorem Source.TokenAt.noElse {s : Source} {j k : Nat} {kind : TokenKind}
    (h : s.TokenAt (s.skip j) kind k) (hne : kind ≠ .keyword "else") : s.NoElse j := by
  intro depth
  exact Grammar.keyword_declines_at (c := ⟨_, depth⟩) h (by decide) hne

theorem Source.TriviaAt.noElse {s : Source} {m : Nat} (h : s.TriviaAt m s.length)
    (hm : m ≤ s.length) : s.NoElse m := by
  intro depth
  rw [h.skip_eq noTriviaAt_length hm]
  apply Grammar.keyword_declines
  intro hat
  rw [show Text.ofString "else" = _ :: _ from rfl, hasAt_cons, unit?_eq_none (Nat.le_refl _)] at hat
  exact nomatch hat.1

theorem Source.LexedAt.length_le {s : Source} {i j : Nat} {ts : List Token}
    (h : s.LexedAt i ts j) (hi : i ≤ s.length) : i + ts.length ≤ j := by
  induction h with
  | single h =>
    have := (h.bounds hi).1
    simp only [List.length_singleton]
    omega
  | cons h ht hs ih =>
    obtain ⟨hij, hj⟩ := h.bounds hi
    obtain ⟨hjk, hk⟩ := ht.bounds hj
    have := ih hk
    simp only [List.length_cons]
    omega

theorem Source.LexedAfter.length_le {s : Source} {i j : Nat} {ts : List Token}
    (h : s.LexedAfter i ts j) (hi : i ≤ s.length) : i + ts.length ≤ j := by
  obtain ⟨rfl, rfl⟩ | ⟨m, ht, hl⟩ := h
  · exact Nat.le_refl i
  · obtain ⟨him, hm⟩ := ht.bounds hi
    have := hl.length_le hm
    omega

theorem DerivesStmts.length_le {n : Nat} {ts : List Token} {stmts : List Stmt}
    (h : DerivesStmts n ts stmts) : stmts.length ≤ ts.length := by
  induction stmts generalizing ts with
  | nil => exact Nat.zero_le _
  | cons stmt stmts ih =>
    cases h with
    | cons h hs =>
      have := ih hs
      obtain ⟨t, rest, rfl, -⟩ := h.starts
      simp only [List.length_cons, List.length_append]
      omega

theorem DerivesStmts.noElse {n : Nat} {s : Source} {i j : Nat} {ts : List Token}
    {stmts : List Stmt} (h : DerivesStmts n ts stmts) (hi : i ≤ s.length)
    (hl : s.LexedAfter i ts j) (hend : s.NoElse j) : s.NoElse i := by
  cases h with
  | nil =>
    obtain rfl := hl.of_nil
    exact hend
  | cons h hs =>
    obtain ⟨t, rest, rfl, ht⟩ := h.starts
    obtain ⟨k, hk⟩ := (hl.at hi (List.cons_ne_nil _ _)).head
    exact hk.noElse ht.ne_else

theorem DerivesNames.repeated {ts : List Token} {words : List Text} (h : DerivesNames ts words) :
    ∃ us vs w rest, us ++ vs = ts ∧ w :: rest = words ∧ (∃ a, us = [.name w a]) ∧
      Repeated (fun ws w => ∃ a xs, Token.mark "," a :: xs = ws ∧ ∃ b, xs = [.name w b])
        vs rest := by
  induction h with
  | single w a => exact ⟨_, [], w, [], rfl, rfl, ⟨a, rfl⟩, .nil⟩
  | cons w a b h ih =>
    obtain ⟨_, vs, w', rest, rfl, rfl, ⟨c, rfl⟩, hs⟩ := ih
    exact ⟨_, _, w, _, rfl, rfl, ⟨a, rfl⟩, .cons ⟨b, _, rfl, c, rfl⟩ hs⟩

theorem DerivesParams.separated {ts : List Token} {words : List Text} (h : DerivesParams ts words) :
    Separated (fun us w => ∃ a, us = [.name w a]) ts words := by
  cases h with
  | none => exact .inl ⟨rfl, rfl⟩
  | some h => exact .inr h.repeated

theorem DerivesBlock.starts {k : Nat} {ts : List Token} {body : Block}
    (h : DerivesBlock k ts body) : ∃ a rest, ts = .mark "\x7b" a :: rest := by
  cases h with
  | mk a b hs => exact ⟨a, _, rfl⟩

theorem DerivesBlock.ne_nil {k : Nat} {ts : List Token} {body : Block}
    (h : DerivesBlock k ts body) : ts ≠ [] := by
  obtain ⟨a, rest, rfl⟩ := h.starts
  exact List.cons_ne_nil _ _

namespace Grammar

variable {α β : Type} {inner : InnerStmt} {n : Nat} {s : Source} {c d : Cursor} {j : Nat}

/-- The rules that statements use further in accept what the grammar derives where one construct
less may be opened. -/
structure InnerStmt.Complete (inner : InnerStmt) (n : Nat) : Prop where
  statement : ∀ k, n = k + 1 → inner.statement.Accepts k (DerivesStmt k) Source.NoElse
  conditional : ∀ k, n = k + 1 → ∀ ⦃s : Source⦄ ⦃c : Cursor⦄ ⦃ts : List Token⦄ ⦃j : Nat⦄
    ⦃condition : Expr⦄ ⦃thenBlock : Block⦄ ⦃elseBlock : Option Block⦄ ⦃b : Span⦄,
    c.offset ≤ s.length → c.room = k → s.LexedAt c.offset ts j →
    DerivesStmt k ts (.conditional condition thenBlock elseBlock b) → s.NoElse j →
    inner.conditional s c = .ok ⟨j, c.depth⟩ (.conditional condition thenBlock elseBlock b)

/-- Statements are read up to their end, which is not found before. -/
theorem statementsWithin_of_derives {statement : Parser Stmt} {ending : Parser (Option α)}
    {expected : Text} {fuel : Nat} {ts : List Token} {stmts : List Stmt} {a : α}
    (h : statement.Accepts n (DerivesStmt n) Source.NoElse) (hs : DerivesStmts n ts stmts)
    (hnot : ∀ i kind k, i ≤ s.length → s.TokenAt i kind k → kind.StartsStmt →
      ending s ⟨i, c.depth⟩ = .ok ⟨i, c.depth⟩ none)
    (hc : c.offset ≤ s.length) (hn : c.room = n) (hl : s.LexedAfter c.offset ts j)
    (hend : ending s ⟨s.skip j, c.depth⟩ = .ok d (some a)) (helse : s.NoElse j)
    (hfuel : stmts.length < fuel) :
    statementsWithin statement ending expected fuel s c = .ok d stmts := by
  induction stmts generalizing c ts fuel with
  | nil =>
    cases hs
    obtain rfl := hl.of_nil
    cases fuel with
    | zero => cases hfuel
    | succ fuel => exact statementsWithin_succ_eq_ok.2 (.inl ⟨a, hend, rfl⟩)
  | cons stmt stmts ih =>
    cases hs with
    | @cons _ us vs _ _ hst hs =>
      obtain ⟨t, rest, hts, ht⟩ := hst.starts
      have hne : us ≠ [] := by
        rw [hts]
        exact List.cons_ne_nil _ _
      obtain ⟨m, hm, hl⟩ := hl.split hc
      have hlen := (hm.bounds hc).2
      have hm := hm.at hc hne
      obtain ⟨k, hk⟩ := (hts ▸ hm).head
      have hlt : s.skip c.offset < s.length := by
        obtain ⟨hlt, hle⟩ := hk.bounds (skip_le hc)
        omega
      have hok := h (c := ⟨_, c.depth⟩) (skip_le hc) hn hm hst (hs.noElse hlen hl helse)
      cases fuel with
      | zero => cases hfuel
      | succ fuel =>
        have hrest := ih (c := ⟨m, c.depth⟩) hs hnot hlen hn hl hend
          (by simpa using hfuel)
        refine statementsWithin_succ_eq_ok.2 (.inr ⟨⟨_, hnot _ _ _ (skip_le hc) hk ht⟩, ?_,
          _, stmt, stmts, hok, hrest, rfl⟩)
        simpa [Cursor.atEnd] using hlt

theorem statementsUntil_of_derives {statement : Parser Stmt} {terminator : Parser α}
    {expected : Text} {ts : List Token} {stmts : List Stmt} {a : α}
    (h : statement.Accepts n (DerivesStmt n) Source.NoElse) (hs : DerivesStmts n ts stmts)
    (hnot : ∀ i kind k, i ≤ s.length → s.TokenAt i kind k → kind.StartsStmt →
      terminator.Declines s ⟨i, c.depth⟩)
    (hc : c.offset ≤ s.length) (hn : c.room = n) (hl : s.LexedAfter c.offset ts j)
    (hend : terminator s ⟨s.skip j, c.depth⟩ = .ok d a) (helse : s.NoElse j) :
    statementsUntil statement terminator expected s c = .ok d stmts := by
  have hnone : ∀ i kind k, i ≤ s.length → s.TokenAt i kind k → kind.StartsStmt →
      attempt terminator s ⟨i, c.depth⟩ = .ok ⟨i, c.depth⟩ none := by
    intro i kind k hi hk hst
    obtain ⟨f, hf, -⟩ := hnot i kind k hi hk hst
    exact attempt_eq_ok_none.2 ⟨⟨f, hf⟩, rfl⟩
  have hfuel : stmts.length < s.length - c.offset + 1 := by
    have h₁ := hs.length_le
    have h₂ := hl.length_le hc
    have h₃ := (hl.bounds hc).2
    omega
  exact statementsWithin_of_derives h hs hnone hc hn hl (attempt_eq_ok_some.2 hend) helse hfuel

theorem blockWith_accepts (h : inner.Complete n) :
    (blockWith inner).Accepts n (DerivesBlock n) fun _ _ => True := by
  intro s c ts j body hc hn hl hb _
  cases hb with
  | @mk k ts stmts a b hs =>
    have hspan := hl.extent
    obtain ⟨i, hi, -, hl⟩ := hl.uncons hc (by simp)
    have hlen := (hi.bounds hc).2
    obtain ⟨m, hm, hl⟩ := (hl.after hlen).split hlen
    have hmlen := (hm.bounds hlen).2
    have hclose : s.TokenAt (s.skip m) (.mark "\x7d") j :=
      (hl.at hmlen (List.cons_ne_nil _ _)).of_single.1
    have hnot : ∀ i kind k, i ≤ s.length → s.TokenAt i kind k → kind.StartsStmt →
        (literal "\x7d").Declines s ⟨i, c.depth + 1⟩ := by
      intro i kind k _ hk hst
      exact literal_declines_at (c := ⟨i, c.depth + 1⟩) hk (by decide) hst.ne_brace
    have hend : literal "\x7d" s ⟨s.skip m, c.depth + 1⟩ = .ok ⟨j, c.depth + 1⟩ "\x7d" :=
      literal_at (c := ⟨_, c.depth + 1⟩) (skip_le hmlen) hclose
    have hbody : statementsUntil inner.statement (literal "\x7d") "\x7d" s ⟨i, c.depth + 1⟩ =
        .ok ⟨j, c.depth + 1⟩ stmts :=
      statementsUntil_of_derives (c := ⟨i, c.depth + 1⟩) (h.statement k rfl) hs hnot hlen
        (room_succ hn) hm hend (hclose.noElse (by decide))
    have hdeep := deeper_of_room (c := ⟨i, c.depth⟩) hn hbody
    apply labelled_eq_ok.2
    refine mapSpan_eq_ok.2 ⟨stmts, ?_, by rw [hspan]; rfl⟩
    exact seqRight_eq_ok.2 ⟨_, _, literal_at hc hi, committed_eq_ok.2 hdeep⟩

theorem conditional_declines (h : s.TokenAt c.offset (.keyword "if") j) :
    (blockWith inner).Declines s c := by
  have hdec := literal_declines_at h (m := "\x7b") (by decide) nofun
  exact ((hdec.seqRight _).mapSpan _).labelled _

theorem elseWith_accepts {ts : List Token} {body : Block} (h : inner.Complete n)
    (hc : c.offset ≤ s.length) (hn : c.room = n) (hl : s.LexedAfter c.offset ts j)
    (he : DerivesElse n ts (some body)) (hf : s.NoElse j) :
    elseWith inner s c = .ok ⟨j, c.depth⟩ body := by
  have hkeyword {a : Span} {us : List Token} (hus : us ≠ [])
      (hl : s.LexedAfter c.offset (.keyword "else" a :: us) j) :
      ∃ i, spaced (keyword "else") s c = .ok ⟨i, c.depth⟩ "else" ∧ i ≤ s.length ∧
        s.LexedAt (s.skip i) us j := by
    obtain ⟨i, hi, -, hl⟩ := (hl.at hc (List.cons_ne_nil _ _)).uncons (skip_le hc) hus
    exact ⟨i, (keyword_eq_ok (c := ⟨_, c.depth⟩) (skip_le hc) (by decide)).2 ⟨hi, rfl, rfl⟩,
      (hi.bounds (skip_le hc)).2, hl⟩
  cases he with
  | block a hb =>
    obtain ⟨i, hi, hlen, hl⟩ := hkeyword hb.ne_nil hl
    have hok := blockWith_accepts (c := ⟨s.skip i, c.depth⟩) h (skip_le hlen) hn hl hb trivial
    exact seqRight_eq_ok.2 ⟨_, _, hi, committed_eq_ok.2 (choice_take hok)⟩
  | @chained k ts condition thenBlock elseBlock b a hs =>
    have hne : ts ≠ [] := by
      obtain ⟨t, rest, rfl, -⟩ := hs.starts
      exact List.cons_ne_nil _ _
    obtain ⟨i, hi, hlen, hl⟩ := hkeyword hne hl
    have hif : ∃ m, s.TokenAt (s.skip i) (.keyword "if") m := by
      cases hs with
      | conditional => exact hl.head
    obtain ⟨m, hm⟩ := hif
    have hok := h.conditional k rfl (c := ⟨s.skip i, c.depth + 1⟩) (skip_le hlen) (room_succ hn) hl
      hs hf
    have hdeep := deeper_of_room (c := ⟨s.skip i, c.depth⟩) hn hok
    have hdec : (blockWith inner).Declines s ⟨s.skip i, c.depth⟩ := conditional_declines hm
    have hchoice : choice [blockWith inner, (fun stmt => .mk [stmt] stmt.span) <$>
        deeper inner.conditional] s ⟨s.skip i, c.depth⟩ = .ok ⟨j, c.depth⟩ _ :=
      choice_skip hdec (choice_take (map_eq_ok.2 ⟨_, hdeep, rfl⟩))
    exact seqRight_eq_ok.2 ⟨_, _, hi, committed_eq_ok.2 hchoice⟩

theorem else_accepts {ts : List Token} {body : Option Block} (h : inner.Complete n)
    (hc : c.offset ≤ s.length) (hn : c.room = n) (hl : s.LexedAfter c.offset ts j)
    (he : DerivesElse n ts body) (hf : s.NoElse j) :
    optional (elseWith inner) s c = .ok ⟨j, c.depth⟩ body := by
  cases body with
  | none =>
    cases he
    obtain rfl := hl.of_nil
    have hdec : (spaced (keyword "else")).Declines s c := (hf c.depth).spaced
    exact optional_eq_ok.2 (.inr ⟨hdec.seqRight _, rfl, rfl⟩)
  | some body => exact optional_eq_ok.2 (.inl ⟨body, elseWith_accepts h hc hn hl he hf, rfl⟩)

theorem keyword_rule_declines {w : Text} (h : (keyword w).Declines s c) (p : Parser α)
    (label : Text) (f : α → Span → β) :
    (labelled label (mapSpan (keyword w *> committed p) f)).Declines s c :=
  ((h.seqRight _).mapSpan _).labelled _

theorem keyword_statement_at {p : Parser α} {w label : Text} {f : α → Span → Stmt} {v : α}
    {a : Span} {us : List Token} (hw : w ∈ keywords) (hc : c.offset ≤ s.length)
    (hl : s.LexedAt c.offset (.keyword w a :: us) j) (hus : us ≠ [])
    (hp : ∀ i, i ≤ s.length → s.LexedAt (s.skip i) us j → p s ⟨i, c.depth⟩ = .ok ⟨j, c.depth⟩ v) :
    labelled label (mapSpan (keyword w *> committed p) f) s c =
      .ok ⟨j, c.depth⟩ (f v (Token.extent (.keyword w a :: us))) := by
  have hspan := hl.extent
  obtain ⟨i, hi, -, hl⟩ := hl.uncons hc hus
  have hkeyword : keyword w s c = .ok ⟨i, c.depth⟩ w := (keyword_eq_ok hc hw).2 ⟨hi, rfl, rfl⟩
  have hok := hp i (hi.bounds hc).2 hl
  apply labelled_eq_ok.2
  refine mapSpan_eq_ok.2 ⟨v, ?_, by rw [hspan]; rfl⟩
  exact seqRight_eq_ok.2 ⟨_, _, hkeyword, committed_eq_ok.2 hok⟩

theorem expression_before {us vs : List Token} {e : Expr} {i : Nat} (hi : i ≤ s.length)
    (hn : c.room = n) (hl : s.LexedAt (s.skip i) (us ++ vs) j) (he : DerivesExpr n 1 us e)
    {m : Text} {a : Span} {ws : List Token} (hvs : vs = .mark m a :: ws)
    (hm : m ∈ ([")", ",", ";", "\x7b"] : List Text)) :
    ∃ k, spaced expression s ⟨i, c.depth⟩ = .ok ⟨k, c.depth⟩ e ∧ k ≤ s.length ∧
      s.LexedAt (s.skip k) vs j := by
  have hskip := skip_le hi
  obtain ⟨k, hk, hl⟩ := hl.split hskip he.ne_nil (by rw [hvs]; exact List.cons_ne_nil _ _)
  obtain ⟨l, hmark⟩ := (hvs ▸ hl).head
  have hstops : s.Stops 1 k := .inr ⟨_, l, hmark, TokenKind.stops_of_mem hm 1⟩
  have hok := expression_accepts (c := ⟨s.skip i, c.depth⟩) hskip hn hk he hstops
  exact ⟨k, hok, (hk.bounds hskip).2, hl⟩

theorem semicolon_at {a : Span} {i : Nat} (hi : i ≤ s.length)
    (hl : s.LexedAt (s.skip i) [.mark ";" a] j) :
    semicolon s ⟨i, c.depth⟩ = .ok ⟨j, c.depth⟩ ";" :=
  literal_at (c := ⟨_, c.depth⟩) (skip_le hi) hl.of_single.1

theorem conditionalWith_accepts {ts us vs : List Token} {condition : Expr} {thenBlock : Block}
    {elseBlock : Option Block} {a : Span} (h : inner.Complete n) (hc : c.offset ≤ s.length)
    (hn : c.room = n) (hl : s.LexedAt c.offset (.keyword "if" a :: (ts ++ (us ++ vs))) j)
    (hcond : DerivesExpr n 1 ts condition) (ht : DerivesBlock n us thenBlock)
    (he : DerivesElse n vs elseBlock) (hf : s.NoElse j) :
    conditionalWith inner s c = .ok ⟨j, c.depth⟩ (.conditional condition thenBlock elseBlock
      (Token.extent (.keyword "if" a :: (ts ++ (us ++ vs))))) := by
  refine keyword_statement_at (v := (condition, thenBlock, elseBlock)) (by decide) hc hl
    (by simp [hcond.ne_nil]) ?_
  intro i hi hl
  obtain ⟨b, us', hus⟩ := ht.starts
  obtain ⟨k, hcondition, hk, hl⟩ := expression_before hi hn hl hcond
    (by rw [hus, List.cons_append]) (by decide)
  obtain ⟨m, hm, hl⟩ := hl.split_after (skip_le hk) ht.ne_nil
  have hthen : spaced (blockWith inner) s ⟨k, c.depth⟩ = .ok ⟨m, c.depth⟩ thenBlock :=
    blockWith_accepts (c := ⟨s.skip k, c.depth⟩) h (skip_le hk) hn hm ht trivial
  have helse := else_accepts (c := ⟨m, c.depth⟩) h (hm.bounds (skip_le hk)).2 hn hl he hf
  exact bind_eq_ok.2 ⟨_, _, hcondition, bind_eq_ok.2 ⟨_, _, hthen, bind_eq_ok.2 ⟨_, _, helse, rfl⟩⟩⟩

theorem whileWith_accepts {ts us : List Token} {condition : Expr} {body : Block} {a : Span}
    (h : inner.Complete n) (hc : c.offset ≤ s.length) (hn : c.room = n)
    (hl : s.LexedAt c.offset (.keyword "while" a :: (ts ++ us)) j)
    (hcond : DerivesExpr n 1 ts condition) (hb : DerivesBlock n us body) :
    whileWith inner s c = .ok ⟨j, c.depth⟩ (.whileLoop condition body
      (Token.extent (.keyword "while" a :: (ts ++ us)))) := by
  refine keyword_statement_at (v := (condition, body)) (by decide) hc hl
    (by simp [hcond.ne_nil]) ?_
  intro i hi hl
  obtain ⟨b, us', hus⟩ := hb.starts
  obtain ⟨k, hcondition, hk, hl⟩ := expression_before hi hn hl hcond hus (by decide)
  have hbody : spaced (blockWith inner) s ⟨k, c.depth⟩ = .ok ⟨j, c.depth⟩ body :=
    blockWith_accepts (c := ⟨s.skip k, c.depth⟩) h (skip_le hk) hn hl hb trivial
  exact bind_eq_ok.2 ⟨_, _, hcondition, bind_eq_ok.2 ⟨_, _, hbody, rfl⟩⟩

theorem loopWith_accepts {ts : List Token} {body : Block} {a : Span} (h : inner.Complete n)
    (hc : c.offset ≤ s.length) (hn : c.room = n)
    (hl : s.LexedAt c.offset (.keyword "loop" a :: ts) j) (hb : DerivesBlock n ts body) :
    loopWith inner s c =
      .ok ⟨j, c.depth⟩ (.loop body (Token.extent (.keyword "loop" a :: ts))) := by
  apply keyword_statement_at (by decide) hc hl hb.ne_nil
  intro i hi hl
  exact blockWith_accepts (c := ⟨s.skip i, c.depth⟩) h (skip_le hi) hn hl hb trivial

theorem returnValue_accepts {ts : List Token} {value : Option Expr} {a b : Span}
    (hc : c.offset ≤ s.length) (hn : c.room = n)
    (hl : s.LexedAt c.offset (.keyword "return" a :: (ts ++ [.mark ";" b])) j)
    (hv : DerivesOptional n ts value) :
    returnValue s c = .ok ⟨j, c.depth⟩ (.returnValue value
      (Token.extent (.keyword "return" a :: (ts ++ [.mark ";" b])))) := by
  apply keyword_statement_at (by decide) hc hl (by simp)
  intro i hi hl
  cases hv with
  | none =>
    have hdec : (spaced expression).Declines s ⟨i, c.depth⟩ :=
      (expression_declines_at (c := ⟨s.skip i, c.depth⟩) hl.of_single.1).spaced
    have hnone := optional_eq_ok.2 (.inr ⟨hdec, rfl, rfl⟩)
    exact seqLeft_eq_ok.2 ⟨_, _, hnone, semicolon_at hi hl⟩
  | some he =>
    obtain ⟨k, hok, hk, hl⟩ := expression_before hi hn hl he rfl (by decide)
    have hsome := optional_eq_ok.2 (.inl ⟨_, hok, rfl⟩)
    exact seqLeft_eq_ok.2 ⟨_, _, hsome, semicolon_at hk hl⟩

theorem identifier_at {w : Text} {a : Span} {ts : List Token} {i : Nat} (hi : i ≤ s.length)
    (hl : s.LexedAt (s.skip i) (.name w a :: ts) j) (hts : ts ≠ []) :
    ∃ k, spaced identifier s ⟨i, c.depth⟩ = .ok ⟨k, c.depth⟩ w ∧ k ≤ s.length ∧
      s.LexedAt (s.skip k) ts j := by
  obtain ⟨k, hk, -, hl⟩ := hl.uncons (skip_le hi) hts
  exact ⟨k, identifier_eq_ok.2 ⟨hk, rfl⟩, (hk.bounds (skip_le hi)).2, hl⟩

theorem sign_at {a : Span} {ts : List Token} {i : Nat} (hi : i ≤ s.length)
    (hl : s.LexedAt (s.skip i) (.mark "=" a :: ts) j) (hts : ts ≠ []) :
    ∃ k, spaced (literal "=") s ⟨i, c.depth⟩ = .ok ⟨k, c.depth⟩ "=" ∧ k ≤ s.length ∧
      s.LexedAt (s.skip k) ts j := by
  obtain ⟨k, hk, -, hl⟩ := hl.uncons (skip_le hi) hts
  exact ⟨k, literal_at (c := ⟨_, c.depth⟩) (skip_le hi) hk, (hk.bounds (skip_le hi)).2, hl⟩

theorem initializer_at {ts : List Token} {init : Option Expr} {b : Span} {i : Nat}
    (hi : i ≤ s.length) (hn : c.room = n) (hl : s.LexedAt (s.skip i) (ts ++ [.mark ";" b]) j)
    (h : DerivesInit n ts init) :
    (initializer <* semicolon) s ⟨i, c.depth⟩ = .ok ⟨j, c.depth⟩ init := by
  cases h with
  | none =>
    have hdec : (spaced (literal "=")).Declines s ⟨i, c.depth⟩ := by
      apply Declines.spaced
      apply literal_declines
      rw [Bool.eq_false_iff]
      intro hat
      obtain ⟨m', heq, -, hpre⟩ := hl.of_single.1.mark_of_hasAt (by decide) hat
      cases heq
      exact absurd hpre (by decide)
    have hnone := optional_eq_ok.2 (.inr ⟨hdec.seqRight (committed (spaced expression)), rfl, rfl⟩)
    exact seqLeft_eq_ok.2 ⟨_, _, hnone, semicolon_at hi hl⟩
  | some a he =>
    obtain ⟨k, hsign, hk, hl⟩ := sign_at hi hl (by simp)
    obtain ⟨m, hok, hm, hl⟩ := expression_before hk hn hl he rfl (by decide)
    have hsome := optional_eq_ok.2
      (.inl ⟨_, seqRight_eq_ok.2 ⟨_, _, hsign, committed_eq_ok.2 hok⟩, rfl⟩)
    exact seqLeft_eq_ok.2 ⟨_, _, hsome, semicolon_at hm hl⟩

theorem letBinding_accepts {ts : List Token} {w : Text} {init : Option Expr} {a b d : Span}
    (hc : c.offset ≤ s.length) (hn : c.room = n)
    (hl : s.LexedAt c.offset (.keyword "let" a :: .name w b :: (ts ++ [.mark ";" d])) j)
    (hi : DerivesInit n ts init) :
    letBinding s c = .ok ⟨j, c.depth⟩ (.binding w true init
      (Token.extent (.keyword "let" a :: .name w b :: (ts ++ [.mark ";" d])))) := by
  refine keyword_statement_at (v := (w, init)) (by decide) hc hl (by simp) ?_
  intro i hlen hl
  obtain ⟨k, hname, hk, hl⟩ := identifier_at hlen hl (by simp)
  exact bind_eq_ok.2 ⟨_, _, hname, bind_eq_ok.2 ⟨_, _, initializer_at hk hn hl hi, rfl⟩⟩

theorem constBinding_accepts {ts : List Token} {w : Text} {init : Expr} {a b d e : Span}
    (hc : c.offset ≤ s.length) (hn : c.room = n)
    (hl : s.LexedAt c.offset
      (.keyword "const" a :: .name w b :: .mark "=" d :: (ts ++ [.mark ";" e])) j)
    (hi : DerivesExpr n 1 ts init) :
    constBinding s c = .ok ⟨j, c.depth⟩ (.binding w false (some init) (Token.extent
      (.keyword "const" a :: .name w b :: .mark "=" d :: (ts ++ [.mark ";" e])))) := by
  refine keyword_statement_at (v := (w, init)) (by decide) hc hl (by simp) ?_
  intro i hlen hl
  obtain ⟨k, hname, hk, hl⟩ := identifier_at hlen hl (by simp)
  obtain ⟨m, hsign, hm, hl⟩ := sign_at hk hl (by simp)
  obtain ⟨l, hok, hlen, hl⟩ := expression_before hm hn hl hi rfl (by decide)
  have hinit : (spaced (literal "=") *> spaced expression <* semicolon) s ⟨k, c.depth⟩ =
      .ok ⟨j, c.depth⟩ init :=
    seqLeft_eq_ok.2 ⟨_, _, seqRight_eq_ok.2 ⟨_, _, hsign, hok⟩, semicolon_at hlen hl⟩
  exact bind_eq_ok.2 ⟨_, _, hname, bind_eq_ok.2 ⟨_, _, hinit, rfl⟩⟩

theorem parameters_accepts {ts : List Token} {words : List Text} {a b : Span}
    (hc : c.offset ≤ s.length)
    (hl : s.LexedAt c.offset (.mark "(" a :: (ts ++ [.mark ")" b])) j)
    (hp : DerivesParams ts words) : parameters s c = .ok ⟨j, c.depth⟩ words := by
  obtain ⟨i, hi, -, hl⟩ := hl.uncons hc (by simp)
  have hlen := (hi.bounds hc).2
  have hopen : literal "(" s c = .ok ⟨i, c.depth⟩ "(" := literal_at hc hi
  have hitem : identifier.Accepts c.room (fun us w => ∃ a, us = [.name w a]) fun _ _ => True := by
    rintro s c _ j w hc hn hl ⟨a, rfl⟩ -
    exact identifier_eq_ok.2 ⟨hl.of_single.1, rfl⟩
  have hbody := closed_accepts (c := ⟨i, c.depth⟩) hitem (by rintro _ w ⟨a, rfl⟩; simp)
    (fun _ _ _ _ _ _ => trivial) (fun s c k hk => identifier_declines_at hk nofun) hp.separated hlen
    rfl (hl.after hlen)
  obtain ⟨e, u, f, t, he, hw, ht⟩ := between_eq_ok.1 hbody
  exact between_eq_ok.2 ⟨e, u, f, t, seqRight_eq_ok.2 ⟨_, _, hopen, he⟩, hw, ht⟩

theorem functionWith_accepts {ts us : List Token} {w : Text} {params : List Text} {body : Block}
    {a b d e : Span} (h : inner.Complete n) (hc : c.offset ≤ s.length) (hn : c.room = n)
    (hl : s.LexedAt c.offset
      (.keyword "fn" a :: .name w b :: .mark "(" d :: (ts ++ .mark ")" e :: us)) j)
    (hp : DerivesParams ts params) (hb : DerivesBlock n us body) :
    functionWith inner s c = .ok ⟨j, c.depth⟩ (.function w params body (Token.extent
      (.keyword "fn" a :: .name w b :: .mark "(" d :: (ts ++ .mark ")" e :: us)))) := by
  refine keyword_statement_at (v := (w, params, body)) (by decide) hc hl (by simp) ?_
  intro i hi hl
  obtain ⟨k, hname, hk, hl⟩ := identifier_at hi hl (by simp)
  have hl : s.LexedAt (s.skip k) ((.mark "(" d :: (ts ++ [.mark ")" e])) ++ us) j := by
    simpa using hl
  obtain ⟨m, hm, hl⟩ := hl.split (skip_le hk) (List.cons_ne_nil _ _) hb.ne_nil
  have hmlen := (hm.bounds (skip_le hk)).2
  have hparams : spaced parameters s ⟨k, c.depth⟩ = .ok ⟨m, c.depth⟩ params :=
    parameters_accepts (c := ⟨s.skip k, c.depth⟩) (skip_le hk) hm hp
  have hbody : spaced (blockWith inner) s ⟨m, c.depth⟩ = .ok ⟨j, c.depth⟩ body :=
    blockWith_accepts (c := ⟨s.skip m, c.depth⟩) h (skip_le hmlen) hn hl hb trivial
  exact bind_eq_ok.2 ⟨_, _, hname, bind_eq_ok.2 ⟨_, _, hparams, bind_eq_ok.2 ⟨_, _, hbody, rfl⟩⟩⟩

theorem expressionStmt_accepts {ts : List Token} {e : Expr} {a : Span} (hc : c.offset ≤ s.length)
    (hn : c.room = n) (hl : s.LexedAt c.offset (ts ++ [.mark ";" a]) j)
    (he : DerivesExpr n 1 ts e) :
    expressionStmt s c = .ok ⟨j, c.depth⟩ (.expression e (Token.extent (ts ++ [.mark ";" a]))) := by
  have hspan := hl.extent
  have hskip := hl.noTrivia.skip_eq hc
  rw [← hskip] at hl
  obtain ⟨k, hok, hk, hl⟩ := expression_before hc hn hl he rfl (by decide)
  rw [spaced_apply, hskip] at hok
  apply labelled_eq_ok.2
  refine mapSpan_eq_ok.2 ⟨e, ?_, by rw [hspan]; rfl⟩
  exact seqLeft_eq_ok.2 ⟨_, _, hok, semicolon_at hk hl⟩

theorem keyword_semicolon_at {w label : Text} {f : Text → Span → Stmt} {a b : Span}
    (hw : w ∈ keywords) (hc : c.offset ≤ s.length)
    (hl : s.LexedAt c.offset [.keyword w a, .mark ";" b] j) :
    labelled label (mapSpan (keyword w *> committed semicolon) f) s c =
      .ok ⟨j, c.depth⟩ (f ";" (Token.extent [.keyword w a, .mark ";" b])) :=
  keyword_statement_at hw hc hl (List.cons_ne_nil _ _) fun _ hi hl => semicolon_at hi hl

/-- The rules of the statements that start with a keyword, in the order in which they are tried. -/
def keywordRulesWith (inner : InnerStmt) : List (Text × Parser Stmt) :=
  [("if", conditionalWith inner), ("while", whileWith inner), ("loop", loopWith inner),
    ("break", breakLoop), ("continue", continueLoop), ("return", returnValue),
    ("let", letBinding), ("const", constBinding), ("fn", functionWith inner)]

theorem keywordRulesWith_words (inner : InnerStmt) :
    (keywordRulesWith inner).map Prod.fst =
      (["if", "while", "loop", "break", "continue", "return", "let", "const", "fn"] : List Text) :=
  rfl

theorem statementWith_eq_choice (inner : InnerStmt) : statementWith inner =
    choice ((Stmt.block <$> blockWith inner) ::
      ((keywordRulesWith inner).map Prod.snd ++ [expressionStmt])) := rfl

theorem block_rule_declines {kind : TokenKind} (hi : s.TokenAt c.offset kind j)
    (hne : kind ≠ .mark "\x7b") : (Stmt.block <$> blockWith inner).Declines s c := by
  have hopen := literal_declines_at hi (m := "\x7b") (by decide) hne
  exact (((hopen.seqRight _).mapSpan _).labelled _).map _

/-- The rules of all keywords decline but that of the keyword that is there, if one is. -/
theorem keywordRulesWith_decline {kind : TokenKind} (hi : s.TokenAt c.offset kind j) :
    ∀ entry ∈ keywordRulesWith inner, kind ≠ .keyword entry.1 → entry.2.Declines s c := by
  have hrule {γ : Type} {p : Parser γ} {w label : Text} {f : γ → Span → Stmt} (hw : w ∈ keywords)
      (hne : kind ≠ .keyword w) :
      (labelled label (mapSpan (keyword w *> committed p) f)).Declines s c :=
    keyword_rule_declines (keyword_declines_at hi hw hne) p label f
  simp only [keywordRulesWith, List.forall_mem_cons, List.not_mem_nil, false_implies, implies_true,
    and_true]
  exact ⟨hrule (by decide), hrule (by decide), hrule (by decide), hrule (by decide),
    hrule (by decide), hrule (by decide), hrule (by decide), hrule (by decide), hrule (by decide)⟩

/-- The rule of the keyword that is there reads the statement: those before it decline. -/
theorem statementWith_of_keyword {w : Text} {rule : Parser Stmt} {a : Span} {ts : List Token}
    {d : Cursor} {stmt : Stmt} (hmem : (w, rule) ∈ keywordRulesWith inner)
    (hl : s.LexedAt c.offset (.keyword w a :: ts) j) (hok : rule s c = .ok d stmt) :
    statementWith inner s c = .ok d stmt := by
  obtain ⟨i, hi⟩ := hl.head
  obtain ⟨before, after, hall⟩ := List.append_of_mem hmem
  have hother : ∀ entry ∈ before, TokenKind.keyword w ≠ .keyword entry.1 := by
    rintro entry hentry ⟨⟩
    have hdistinct : ((keywordRulesWith inner).map Prod.fst).Nodup := by
      rw [keywordRulesWith_words]
      decide
    rw [hall, List.map_append, List.map_cons, List.nodup_append] at hdistinct
    exact hdistinct.2.2 _ (List.mem_map_of_mem hentry) _ List.mem_cons_self rfl
  have hbefore : ∀ p ∈ before.map Prod.snd, p.Declines s c := by
    rw [List.forall_mem_map]
    intro entry hentry
    have hmem' : entry ∈ keywordRulesWith inner := hall ▸ List.mem_append_left _ hentry
    exact keywordRulesWith_decline hi entry hmem' (hother entry hentry)
  rw [statementWith_eq_choice, hall, List.map_append, List.append_assoc]
  exact choice_skip (block_rule_declines hi nofun) (choice_append hbefore (choice_take hok))

theorem statementWith_of_expression {m : Nat} {ts : List Token} {e : Expr} {a : Span} {d : Cursor}
    {stmt : Stmt} (he : DerivesExpr n m ts e) (hl : s.LexedAt c.offset (ts ++ [.mark ";" a]) j)
    (hok : expressionStmt s c = .ok d stmt) : statementWith inner s c = .ok d stmt := by
  obtain ⟨t, rest, rfl, ht⟩ := he.starts
  obtain ⟨i, hi⟩ := hl.head
  have hrules : ∀ p ∈ (keywordRulesWith inner).map Prod.snd, p.Declines s c := by
    rw [List.forall_mem_map]
    intro entry hentry
    have hword : ∀ w ∈ (keywordRulesWith inner).map Prod.fst,
        w ∉ (["true", "false", "null"] : List Text) := by
      rw [keywordRulesWith_words]
      decide
    exact keywordRulesWith_decline hi entry hentry
      (ht.ne_keyword (hword entry.1 (List.mem_map_of_mem hentry)))
  exact choice_skip (block_rule_declines hi ht.ne_open) (choice_append hrules (choice_take hok))

/-- A statement is read where its tokens stand; after a conditional there must be no `else`. -/
theorem statementWith_of_derives {ts : List Token} {stmt : Stmt} (h : inner.Complete n)
    (hc : c.offset ≤ s.length) (hn : c.room = n) (hl : s.LexedAt c.offset ts j)
    (hst : DerivesStmt n ts stmt)
    (hf : ∀ condition thenBlock elseBlock b,
      stmt = .conditional condition thenBlock elseBlock b → s.NoElse j) :
    statementWith inner s c = .ok ⟨j, c.depth⟩ stmt := by
  cases hst with
  | block hb =>
    exact choice_take (map_eq_ok.2 ⟨_, blockWith_accepts h hc hn hl hb trivial, rfl⟩)
  | conditional a hcond ht he =>
    have hok := conditionalWith_accepts h hc hn hl hcond ht he (hf _ _ _ _ rfl)
    exact statementWith_of_keyword (by simp [keywordRulesWith]) hl hok
  | whileLoop a hcond hb =>
    have hok := whileWith_accepts h hc hn hl hcond hb
    exact statementWith_of_keyword (by simp [keywordRulesWith]) hl hok
  | loop a hb =>
    have hok := loopWith_accepts h hc hn hl hb
    exact statementWith_of_keyword (by simp [keywordRulesWith]) hl hok
  | breakLoop a b =>
    have hok : breakLoop s c = _ := keyword_semicolon_at (by decide) hc hl
    exact statementWith_of_keyword (by simp [keywordRulesWith]) hl hok
  | continueLoop a b =>
    have hok : continueLoop s c = _ := keyword_semicolon_at (by decide) hc hl
    exact statementWith_of_keyword (by simp [keywordRulesWith]) hl hok
  | returnValue a b hv =>
    have hok := returnValue_accepts hc hn hl hv
    exact statementWith_of_keyword (by simp [keywordRulesWith]) hl hok
  | letBinding w a b d hv =>
    have hok := letBinding_accepts hc hn hl hv
    exact statementWith_of_keyword (by simp [keywordRulesWith]) hl hok
  | constBinding w a b d e hv =>
    have hok := constBinding_accepts hc hn hl hv
    exact statementWith_of_keyword (by simp [keywordRulesWith]) hl hok
  | function w a b d e hp hb =>
    have hok := functionWith_accepts h hc hn hl hp hb
    exact statementWith_of_keyword (by simp [keywordRulesWith]) hl hok
  | expression a he =>
    have hok := expressionStmt_accepts hc hn hl he
    exact statementWith_of_expression he hl hok

theorem statementWith_accepts (h : inner.Complete n) :
    (statementWith inner).Accepts n (DerivesStmt n) Source.NoElse :=
  fun _ _ _ _ _ hc hn hl hst hf => statementWith_of_derives h hc hn hl hst fun _ _ _ _ _ => hf

theorem InnerStmt.ofLevels_complete (n : Nat) : (InnerStmt.ofLevels n).Complete n := by
  induction n with
  | zero => exact ⟨fun k hk => (nomatch hk), fun k hk => (nomatch hk)⟩
  | succ n ih =>
    refine ⟨?_, ?_⟩
    · intro k hk
      cases hk
      exact statementWith_accepts ih
    · intro k hk s c ts j condition thenBlock elseBlock b hc hn hl hs hf
      cases hk
      cases hs with
      | conditional a hcond ht he => exact conditionalWith_accepts ih hc hn hl hcond ht he hf

theorem statement_accepts : statement.Accepts n (DerivesStmt n) Source.NoElse := by
  intro s c ts j stmt hc hn hl hs hf
  have hok := statementWith_accepts (InnerStmt.ofLevels_complete n) hc hn hl hs hf
  rwa [← hn] at hok

theorem program_accepts {ts : List Token} {stmts : List Stmt} {m : Nat} (hc : c.offset ≤ s.length)
    (hl : s.LexedAfter c.offset ts m) (ht : s.TriviaAt m s.length)
    (hs : DerivesStmts c.room ts stmts) :
    program s c = .ok ⟨s.length, c.depth⟩ ⟨stmts, c.spanTo ⟨s.length, c.depth⟩ s⟩ := by
  have hm := (hl.bounds hc).2
  have hskip : s.skip m = s.length := ht.skip_eq noTriviaAt_length hm
  have hend : endOfInput s ⟨s.skip m, c.depth⟩ = .ok ⟨s.length, c.depth⟩ () := by
    rw [hskip, endOfInput, if_pos (by simp [Cursor.atEnd])]
  have helse := ht.noElse hm
  have hbefore : ∀ i kind k, i ≤ s.length → s.TokenAt i kind k → kind.StartsStmt →
      endOfInput.Declines s ⟨i, c.depth⟩ := by
    intro i kind k hi hk _
    obtain ⟨hlt, hle⟩ := hk.bounds hi
    refine ⟨_, if_neg ?_, rfl⟩
    simp only [Cursor.atEnd, decide_eq_true_eq]
    omega
  have hok : statementsUntil statement endOfInput "end of input" s c =
      .ok ⟨s.length, c.depth⟩ stmts :=
    statementsUntil_of_derives statement_accepts hs hbefore hc rfl hl hend helse
  exact labelled_eq_ok.2 (mapSpan_eq_ok.2 ⟨stmts, hok, rfl⟩)

end Grammar

end BrookSyntax
