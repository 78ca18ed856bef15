import BrookSyntax.Outcome
import BrookSyntax.Proofs.Rounding
import BrookSyntax.Proofs.Soundness
import BrookSyntax.Proofs.Storable

namespace BrookSyntax

open Source

namespace Position

variable {p : Position}

theorem next_bounds (h : 1 ≤ p.line ∧ 1 ≤ p.col) (u : CodeUnit) :
    1 ≤ (p.next u).line ∧ 1 ≤ (p.next u).col ∧ (p.next u).line ≤ p.line + 1 ∧
      (p.next u).col ≤ p.col + 1 ∧ (p.next u).offset = p.offset + 1 := by
  obtain ⟨hline, hcol⟩ := h
  rw [next]
  split
  · exact ⟨Nat.le_add_left 1 _, Nat.le_refl 1, Nat.le_refl _, Nat.le_add_left 1 _, rfl⟩
  · exact ⟨hline, Nat.le_add_left 1 _, Nat.le_add_right _ 1, Nat.le_refl _, rfl⟩

/-- Lines and columns are counted from one and grow by one at most with every unit. -/
theorem foldl_next_bounds (h : 1 ≤ p.line ∧ 1 ≤ p.col) (t : Text) :
    1 ≤ (t.foldl next p).line ∧ 1 ≤ (t.foldl next p).col ∧
      (t.foldl next p).line ≤ p.line + t.length ∧ (t.foldl next p).col ≤ p.col + t.length ∧
      (t.foldl next p).offset = p.offset + t.length := by
  induction t generalizing p with
  | nil => exact ⟨h.1, h.2, Nat.le_refl _, Nat.le_refl _, rfl⟩
  | cons u rest ih =>
    obtain ⟨hline, hcol, hline', hcol', hoffset⟩ := next_bounds h u
    obtain ⟨hl, hc, hl', hc', ho⟩ := ih ⟨hline, hcol⟩
    rw [List.foldl_cons, List.length_cons]
    exact ⟨hl, hc, by omega, by omega, by omega⟩

end Position

/-- The places of a source that is no longer than texts can be have the numbers of double
precision. -/
theorem Source.position_storable (s : Source) (hs : s.length < 2 ^ 53) (i : Nat) :
    (s.position i).Storable := by
  have hlen : (s.text.take i).length ≤ s.length := by
    rw [s.length_eq, List.length_take]
    exact Nat.min_le_right _ _
  obtain ⟨hline, hcol, hline', hcol', hoffset⟩ :=
    Position.foldl_next_bounds ⟨Nat.le_refl 1, Nat.le_refl 1⟩ (s.text.take i) (p := .start)
  rw [← s.position_eq] at hline hcol hline' hcol' hoffset
  have hrepresents {n : Nat} (h : n ≤ 1 + (s.text.take i).length) : Binary64.Represents n :=
    Binary64.toInt?_ofNat (by omega)
  have hstart : Position.start.offset = 0 := rfl
  exact ⟨hline, hcol, hrepresents hline', hrepresents hcol', hrepresents (by omega)⟩

/-- What a token of a kind leaves in a tree can be stored. -/
def TokenKind.Storable : TokenKind → Prop
  | name word => word ≠ []
  | number value => value.isFinite ∧ (value.isZero → value.negative = false)
  | _ => True

/-- What a token leaves in a tree can be stored. -/
def Token.Storable (t : Token) : Prop := t.kind.Storable ∧ t.span.Storable

theorem TokenKind.IsText.storable {kind : TokenKind} {t : Text} (h : kind.IsText t) :
    kind.Storable := by
  cases kind with
  | name word =>
    obtain ⟨-, ⟨⟨u, rest, rfl, -⟩, -⟩, -⟩ := h
    exact List.cons_ne_nil u rest
  | number value =>
    obtain ⟨-, rfl, hfinite⟩ := h
    exact ⟨hfinite, fun _ => Binary64.ofDecimal_negative _ _ _⟩
  | keyword word => trivial
  | mark text => trivial
  | string value => trivial

theorem Source.LexedAt.storable {s : Source} (hs : s.length < 2 ^ 53) {i j : Nat}
    {ts : List Token} (h : s.LexedAt i ts j) : ∀ t ∈ ts, t.Storable := by
  have htoken {i j : Nat} {kind : TokenKind} (h : s.TokenAt i kind j) :
      (Token.mk kind ⟨s.position i, s.position j⟩).Storable := by
    obtain ⟨t, ht, -⟩ := h
    exact ⟨ht.storable, s.position_storable hs i, s.position_storable hs j⟩
  induction h with
  | single h => exact List.forall_mem_singleton.2 (htoken h)
  | cons h _ _ ih => exact List.forall_mem_cons.2 ⟨htoken h, ih⟩

theorem Token.extent_storable {ts : List Token} (h : ∀ t ∈ ts, t.Storable) (hts : ts ≠ []) :
    (extent ts).Storable := by
  have hfirst := h _ (List.head_mem hts)
  have hlast := h _ (List.getLast_mem hts)
  rw [extent, List.head?_eq_some_head hts, List.getLast?_eq_some_getLast hts]
  exact ⟨hfirst.2.1, hlast.2.2⟩

theorem Span.Storable.cover {a b : Span} (ha : a.Storable) (hb : b.Storable) :
    (a.cover b).Storable := by
  have hite {c : Prop} [Decidable c] {p q : Position} (hp : p.Storable) (hq : q.Storable) :
      (if c then p else q).Storable := by
    split
    · exact hp
    · exact hq
  exact ⟨hite hb.1 ha.1, hite hb.2 ha.2⟩

theorem Expr.Storable.span {e : Expr} (h : e.Storable) : e.span.Storable := by
  cases e with
  | number value a => exact h.2
  | string value a => exact h
  | bool value a => exact h
  | null a => exact h
  | name n => exact h.2
  | unary op operand a => exact h.2
  | binary op left right a => exact h.2.2
  | assign target value a => exact h.2.2
  | call callee args a => exact h.2.2

theorem DerivesExpr.storable {k n : Nat} {ts : List Token} {e : Expr} (h : DerivesExpr k n ts e) :
    (∀ t ∈ ts, t.Storable) → e.Storable := by
  induction h using DerivesExpr.rec
    (motive_2 := fun _ ts es _ => (∀ t ∈ ts, t.Storable) → Expr.AllStorable es)
    (motive_3 := fun _ ts es _ => (∀ t ∈ ts, t.Storable) → Expr.AllStorable es) with
  | number k value a =>
    intro hts
    exact hts _ List.mem_cons_self
  | string k value a =>
    intro hts
    exact (hts _ List.mem_cons_self).2
  | true k a =>
    intro hts
    exact (hts _ List.mem_cons_self).2
  | false k a =>
    intro hts
    exact (hts _ List.mem_cons_self).2
  | null k a =>
    intro hts
    exact (hts _ List.mem_cons_self).2
  | name k word a =>
    intro hts
    exact hts _ List.mem_cons_self
  | group a b h ih =>
    intro hts
    rw [List.forall_mem_cons, List.forall_mem_append] at hts
    exact ih hts.2.1
  | call a b hc ha ihc iha =>
    intro hts
    rw [List.forall_mem_append, List.forall_mem_cons, List.forall_mem_append] at hts
    obtain ⟨hcallee, -, hargs, hclose⟩ := hts
    have hstored := ihc hcallee
    exact ⟨hstored, iha hargs, hstored.span.1, (hclose _ List.mem_cons_self).2.2⟩
  | unary op a h ih =>
    intro hts
    have hextent := Token.extent_storable hts (List.cons_ne_nil _ _)
    exact ⟨ih (List.forall_mem_cons.1 hts).2, hextent⟩
  | binary a hn hl hr ihl ihr =>
    intro hts
    rw [List.forall_mem_append, List.forall_mem_cons] at hts
    obtain ⟨hleft, -, hright⟩ := hts
    have hleft' := ihl hleft
    have hright' := ihr hright
    exact ⟨hleft', hright', hleft'.span.cover hright'.span⟩
  | assign word a b h ih =>
    intro hts
    have hextent := Token.extent_storable hts (List.cons_ne_nil _ _)
    rw [List.forall_mem_cons, List.forall_mem_cons] at hts
    exact ⟨hts.1, ih hts.2.2, hextent⟩
  | tighter hn h ih => exact ih
  | single h ih hts => exact ⟨ih hts, trivial⟩
  | cons a h hs ih ihs hts =>
    rw [List.forall_mem_append, List.forall_mem_cons] at hts
    exact ⟨ih hts.1, ihs hts.2.2⟩
  | none => trivial
  | some h ih hts => exact ih hts

theorem DerivesNames.storable {ts : List Token} {words : List Text} (h : DerivesNames ts words)
    (hts : ∀ t ∈ ts, t.Storable) : ∀ word ∈ words, word ≠ [] := by
  induction h with
  | single word a =>
    rw [List.forall_mem_singleton] at hts ⊢
    exact hts.1
  | cons word a b h ih =>
    rw [List.forall_mem_cons, List.forall_mem_cons] at hts
    rw [List.forall_mem_cons]
    exact ⟨hts.1.1, ih hts.2.2⟩

theorem DerivesParams.storable {ts : List Token} {words : List Text} (h : DerivesParams ts words)
    (hts : ∀ t ∈ ts, t.Storable) : ∀ word ∈ words, word ≠ [] := by
  cases h with
  | none => exact nofun
  | some h => exact h.storable hts

theorem DerivesInit.storable {k : Nat} {ts : List Token} {init : Option Expr}
    (h : DerivesInit k ts init) (hts : ∀ t ∈ ts, t.Storable) : init.elim True Expr.Storable := by
  cases h with
  | none => trivial
  | some a h => exact h.storable (List.forall_mem_cons.1 hts).2

theorem DerivesOptional.storable {k : Nat} {ts : List Token} {value : Option Expr}
    (h : DerivesOptional k ts value) (hts : ∀ t ∈ ts, t.Storable) :
    value.elim True Expr.Storable := by
  cases h with
  | none => trivial
  | some h => exact h.storable hts

section Statements

variable {k : Nat} {ts : List Token}

theorem DerivesStmts.storable_of
    (h : ∀ ts stmt, DerivesStmt k ts stmt → (∀ t ∈ ts, t.Storable) → stmt.Storable)
    {stmts : List Stmt} (hs : DerivesStmts k ts stmts) (hts : ∀ t ∈ ts, t.Storable) :
    Stmt.AllStorable stmts := by
  induction stmts generalizing ts with
  | nil => trivial
  | cons stmt stmts ih =>
    cases hs with
    | cons hd hs =>
      rw [List.forall_mem_append] at hts
      exact ⟨h _ stmt hd hts.1, ih hs hts.2⟩

-- Blocks and chained conditionals go one level further in.
variable (ih : ∀ m < k, ∀ ts stmt, DerivesStmt m ts stmt → (∀ t ∈ ts, t.Storable) → stmt.Storable)

include ih

theorem DerivesBlock.storable_of {body : Block} (h : DerivesBlock k ts body)
    (hts : ∀ t ∈ ts, t.Storable) : body.Storable := by
  cases h with
  | mk a b h =>
    have hextent := Token.extent_storable hts (List.cons_ne_nil _ _)
    rw [List.forall_mem_cons, List.forall_mem_append] at hts
    exact ⟨h.storable_of (ih _ (Nat.lt_succ_self _)) hts.2.1, hextent⟩

theorem DerivesElse.storable_of {body : Option Block} (h : DerivesElse k ts body)
    (hts : ∀ t ∈ ts, t.Storable) : Block.OptionStorable body := by
  cases h with
  | none => trivial
  | block a h => exact h.storable_of ih (List.forall_mem_cons.1 hts).2
  | chained a h =>
    have hstmt := ih _ (Nat.lt_succ_self _) _ _ h (List.forall_mem_cons.1 hts).2
    exact ⟨⟨hstmt, trivial⟩, hstmt.2.2.2⟩

theorem DerivesStmt.storable_of {stmt : Stmt} (h : DerivesStmt k ts stmt)
    (hts : ∀ t ∈ ts, t.Storable) : stmt.Storable := by
  have hextent : ts ≠ [] → (Token.extent ts).Storable := Token.extent_storable hts
  cases h with
  | block h => exact h.storable_of ih hts
  | conditional a hc ht he =>
    rw [List.forall_mem_cons, List.forall_mem_append, List.forall_mem_append] at hts
    obtain ⟨-, hcondition, hthen, helse⟩ := hts
    exact ⟨hc.storable hcondition, ht.storable_of ih hthen, he.storable_of ih helse,
      hextent (List.cons_ne_nil _ _)⟩
  | whileLoop a hc hb =>
    rw [List.forall_mem_cons, List.forall_mem_append] at hts
    exact ⟨hc.storable hts.2.1, hb.storable_of ih hts.2.2, hextent (List.cons_ne_nil _ _)⟩
  | loop a hb =>
    rw [List.forall_mem_cons] at hts
    exact ⟨hb.storable_of ih hts.2, hextent (List.cons_ne_nil _ _)⟩
  | breakLoop a b => exact hextent (List.cons_ne_nil _ _)
  | continueLoop a b => exact hextent (List.cons_ne_nil _ _)
  | returnValue a b h =>
    rw [List.forall_mem_cons, List.forall_mem_append] at hts
    exact ⟨h.storable hts.2.1, hextent (List.cons_ne_nil _ _)⟩
  | letBinding word a b c h =>
    rw [List.forall_mem_cons, List.forall_mem_cons, List.forall_mem_append] at hts
    obtain ⟨-, hword, hinit, -⟩ := hts
    exact ⟨hword.1, h.storable hinit, hextent (List.cons_ne_nil _ _)⟩
  | constBinding word a b c d h =>
    rw [List.forall_mem_cons, List.forall_mem_cons, List.forall_mem_cons,
      List.forall_mem_append] at hts
    obtain ⟨-, hword, -, hinit, -⟩ := hts
    exact ⟨hword.1, h.storable hinit, hextent (List.cons_ne_nil _ _)⟩
  | function word a b c d hp hb =>
    rw [List.forall_mem_cons, List.forall_mem_cons, List.forall_mem_cons, List.forall_mem_append,
      List.forall_mem_cons] at hts
    obtain ⟨-, hword, -, hparams, -, hbody⟩ := hts
    exact ⟨hword.1, hp.storable hparams, hb.storable_of ih hbody, hextent (List.cons_ne_nil _ _)⟩
  | expression a h =>
    rw [List.forall_mem_append] at hts
    exact ⟨h.storable hts.1,
      hextent (List.append_ne_nil_of_right_ne_nil _ (List.cons_ne_nil _ _))⟩

end Statements

theorem DerivesStmt.storable {k : Nat} {ts : List Token} {stmt : Stmt} (h : DerivesStmt k ts stmt)
    (hts : ∀ t ∈ ts, t.Storable) : stmt.Storable := by
  induction k using Nat.strong_induction_on generalizing ts stmt with
  | _ k ih => exact h.storable_of (fun m hm ts stmt => ih m hm) hts

theorem Source.parse_storable {s : Source} (hs : s.length < 2 ^ 53) {offset : Double} {d : Cursor}
    {p : Program} (h : s.parse offset = .ok (.ok d p)) : p.Storable := by
  rw [parse] at h
  cases hc : s.cursor offset with
  | error e =>
    rw [hc] at h
    cases h
  | ok c =>
    rw [hc] at h
    have hprogram : Grammar.program s c = .ok d p := Except.ok.inj h
    have hoffset : c.offset ≤ s.length := by
      rw [cursor] at hc
      split at hc
      · next i hi =>
        split at hc
        · next hbounds =>
          have hle : i.toNat ≤ s.length := by omega
          cases hc
          exact hle
        · cases hc
      · cases hc
    obtain ⟨ts, m, hl, -, hstmts, -, hspan⟩ := Grammar.program_lexed hoffset hprogram
    have hts : ∀ t ∈ ts, t.Storable := by
      obtain ⟨rfl, -⟩ | ⟨m, -, hl⟩ := hl
      · exact List.forall_mem_nil _
      · exact hl.storable hs
    refine ⟨hstmts.storable_of (fun _ _ h => h.storable) hts, ?_⟩
    rw [hspan]
    exact ⟨s.position_storable hs _, s.position_storable hs _⟩

end BrookSyntax
