import Mathlib.Data.List.Basic
import BrookSyntax.Proofs.SpanNesting

namespace BrookSyntax

open Source

/-- How many parentheses are open after a token, unless it closes one that is not open. -/
def Token.nest (n : Nat) (t : Token) : Option Nat :=
  if t.kind = .mark "(" then some (n + 1)
  else if t.kind = .mark ")" then if n = 0 then none else some (n - 1)
  else some n

/-- All parentheses among the tokens have their partners among them. -/
def Matched (ts : List Token) : Prop := ts.foldlM Token.nest 0 = some 0

instance (ts : List Token) : Decidable (Matched ts) := inferInstanceAs (Decidable (_ = _))

/-- The span is put together from those of the parts of the expression. -/
def Expr.isJoined : Expr → Bool
  | .binary .. | .call .. => true
  | _ => false

namespace Token

variable {n m k : Nat} {t : Token} {ts us opens closes : List Token}

theorem nest_open (h : t.kind = .mark "(") : nest n t = some (n + 1) := if_pos h

theorem nest_close (h : t.kind = .mark ")") :
    nest n t = if n = 0 then none else some (n - 1) := by
  have hne : t.kind ≠ .mark "(" := by
    rw [h]
    decide
  rw [nest, if_neg hne, if_pos h]

theorem nest_other (h : t.kind ≠ .mark "(" ∧ t.kind ≠ .mark ")") : nest n t = some n := by
  rw [nest, if_neg h.1, if_neg h.2]

theorem nest_add (h : nest n t = some m) (k : Nat) : nest (n + k) t = some (m + k) := by
  by_cases hopen : t.kind = .mark "("
  · rw [nest_open hopen] at h ⊢
    cases h
    rw [Nat.add_right_comm]
  by_cases hclose : t.kind = .mark ")"
  · rw [nest_close hclose] at h ⊢
    split at h
    · cases h
    · next hn =>
      cases h
      rw [if_neg (by omega), show n + k - 1 = n - 1 + k by omega]
  · rw [nest_other ⟨hopen, hclose⟩] at h ⊢
    cases h
    rfl

theorem foldlM_nest_add (h : ts.foldlM nest n = some m) (k : Nat) :
    ts.foldlM nest (n + k) = some (m + k) := by
  induction ts generalizing n with
  | nil =>
    cases h
    rfl
  | cons t ts ih =>
    rw [List.foldlM_cons] at h ⊢
    obtain ⟨l, hl, h⟩ := Option.bind_eq_some_iff.1 h
    rw [nest_add hl k]
    exact ih h

theorem foldlM_nest_open (h : ∀ t ∈ opens, t.kind = .mark "(") (n : Nat) :
    opens.foldlM nest n = some (n + opens.length) := by
  induction opens generalizing n with
  | nil => rfl
  | cons t opens ih =>
    rw [List.forall_mem_cons] at h
    rw [List.foldlM_cons, nest_open h.1, List.length_cons, Nat.add_comm opens.length,
      ← Nat.add_assoc]
    exact ih h.2 (n + 1)

/-- After the tokens as many parentheses are open as before them. -/
def Closed (ts : List Token) : Prop := ∀ n, ts.foldlM nest n = some n

theorem Closed.matched (h : Closed ts) : Matched ts := h 0

theorem Closed.nil : Closed [] := fun _ => rfl

theorem Closed.append (h : Closed ts) (h' : Closed us) : Closed (ts ++ us) := by
  intro n
  rw [List.foldlM_append, h n]
  exact h' n

theorem Closed.cons (ht : t.kind ≠ .mark "(" ∧ t.kind ≠ .mark ")") (h : Closed ts) :
    Closed (t :: ts) := by
  intro n
  rw [List.foldlM_cons, nest_other ht]
  exact h n

theorem Closed.cons_mark {text : Text} (ht : text ≠ "(" ∧ text ≠ ")") (a : Span) (h : Closed ts) :
    Closed (.mark text a :: ts) :=
  .cons ⟨fun heq => ht.1 (TokenKind.mark.inj heq), fun heq => ht.2 (TokenKind.mark.inj heq)⟩ h

theorem Closed.single (ht : t.kind ≠ .mark "(" ∧ t.kind ≠ .mark ")") : Closed [t] := .cons ht .nil

theorem Closed.enclosed (h : Closed ts) (a b : Span) :
    Closed (.mark "(" a :: (ts ++ [.mark ")" b])) := by
  intro n
  rw [List.foldlM_cons, nest_open rfl, Option.bind_eq_bind, Option.bind_some, List.foldlM_append,
    h (n + 1), Option.bind_eq_bind, Option.bind_some, List.foldlM_cons, nest_close rfl]
  rfl

/-- No parenthesis is open before tokens that have all partners up to some point. -/
theorem Closed.nothing_before (h : Closed (opens ++ ts)) (hopens : ∀ t ∈ opens, t.kind = .mark "(")
    (hm : Matched (ts ++ us)) : opens = [] := by
  have hall := h 0
  rw [List.foldlM_append, foldlM_nest_open hopens 0] at hall
  rw [Matched, List.foldlM_append] at hm
  obtain ⟨l, hl, -⟩ := Option.bind_eq_some_iff.1 hm
  have hlate : ts.foldlM nest (0 + opens.length) = some (l + opens.length) := foldlM_nest_add hl _
  have hlen : l + opens.length = 0 := Option.some.inj (hlate.symm.trans hall)
  exact List.eq_nil_of_length_eq_zero (Nat.eq_zero_of_add_eq_zero_left hlen)

theorem Closed.nothing_after (h : Closed (ts ++ closes))
    (hcloses : ∀ t ∈ closes, t.kind = .mark ")") (hm : Matched ts) : closes = [] := by
  cases closes with
  | nil => rfl
  | cons t closes =>
    have hall := h 0
    rw [List.foldlM_append, hm, Option.bind_eq_bind, Option.bind_some, List.foldlM_cons,
      nest_close (hcloses t List.mem_cons_self)] at hall
    cases hall

theorem extent_join {a b c : List Token} (ha : a ≠ []) (hc : c ≠ []) :
    extent (a ++ (b ++ c)) = ⟨(extent a).start, (extent c).stop⟩ := by
  have hbc : b ++ c ≠ [] := List.append_ne_nil_of_right_ne_nil b hc
  rw [extent, List.head?_append_of_ne_nil _ ha, List.getLast?_append_of_ne_nil _ hbc,
    List.getLast?_append_of_ne_nil _ hc]
  rfl

end Token

open Token Node

/-- Tokens of an expression: those that its span covers, between parentheses that open before them
and close after them. The ones in the span are the expression by themselves if their parentheses are
in pairs. -/
structure Expr.Spread (k : Nat) (ts : List Token) (e : Expr) (opens inside closes : List Token) :
    Prop where
  tokens : ts = opens ++ (inside ++ closes)
  opens : ∀ t ∈ opens, t.kind = .mark "("
  closes : ∀ t ∈ closes, t.kind = .mark ")"
  ne_nil : inside ≠ []
  span : e.span = extent inside
  derives : Matched inside → DerivesExpr k 1 inside e
  matched : e.isJoined = false → Matched inside

section Expressions

variable {k n : Nat} {ts : List Token} {e : Expr}

theorem DerivesExpr.closed (h : DerivesExpr k n ts e) : Closed ts := by
  induction h using DerivesExpr.rec (motive_2 := fun _ ts _ _ => Closed ts)
    (motive_3 := fun _ ts _ _ => Closed ts) with
  | number | string | name => exact .single ⟨nofun, nofun⟩
  | true | false | null => exact .single ⟨nofun, nofun⟩
  | group a b h ih => exact ih.enclosed a b
  | call a b hc ha ihc iha => exact ihc.append (iha.enclosed a b)
  | unary op a h ih => exact .cons_mark (by cases op <;> decide) a ih
  | @binary _ _ _ _ _ _ op a hn hl hr ihl ihr =>
    exact ihl.append (.cons_mark (by cases op <;> decide) a ihr)
  | assign word a b h ih => exact .cons ⟨nofun, nofun⟩ (.cons_mark (by decide) b ih)
  | tighter hn h ih => exact ih
  | single h ih => exact ih
  | cons a h hs ih ihs => exact ih.append (.cons_mark (by decide) a ihs)
  | none k => exact .nil
  | some h ih => exact ih

theorem DerivesExpr.spread_self (h : DerivesExpr k n ts e) (hspan : e.span = extent ts) :
    e.Spread k ts [] ts [] where
  tokens := (List.append_nil ts).symm
  opens := nofun
  closes := nofun
  ne_nil := h.ne_nil
  span := hspan
  derives _ := h.loosen (Nat.le_refl 1) h.level_bounds.1
  matched _ := h.closed.matched

theorem Expr.Spread.group {opens inside closes : List Token}
    (h : e.Spread k ts opens inside closes) (a b : Span) :
    e.Spread (k + 1) (.mark "(" a :: (ts ++ [.mark ")" b])) (.mark "(" a :: opens) inside
      (closes ++ [.mark ")" b]) where
  tokens := by rw [h.tokens, List.cons_append, List.append_assoc, List.append_assoc]
  opens := List.forall_mem_cons.2 ⟨rfl, h.opens⟩
  closes := List.forall_mem_append.2 ⟨h.closes, List.forall_mem_singleton.2 rfl⟩
  ne_nil := h.ne_nil
  span := h.span
  derives hm := (h.derives hm).succ
  matched := h.matched

/-- An expression that starts as its first part does and stops in its last tokens. If the ones that
it covers are in pairs, it has left out no parenthesis of the first part, and so none at its end. -/
theorem Expr.Spread.joined {us opens inside closes mid last closes' : List Token} {first : Expr}
    (hfirst : first.Spread k ts opens inside closes) (hclosed : Closed ts)
    (hus : us = mid ++ (last ++ closes')) (hlast : last ≠ [])
    (hcloses : ∀ t ∈ closes', t.kind = .mark ")") (h : DerivesExpr k n (ts ++ us) e)
    (hspan : e.span = ⟨first.span.start, (extent last).stop⟩) (hjoined : e.isJoined = true) :
    e.Spread k (ts ++ us) opens (inside ++ ((closes ++ mid) ++ last)) closes' := by
  have hall : ts ++ us = opens ++ ((inside ++ ((closes ++ mid) ++ last)) ++ closes') := by
    rw [hus, hfirst.tokens]
    simp only [List.append_assoc]
  refine ⟨hall, hfirst.opens, hcloses, List.append_ne_nil_of_left_ne_nil hfirst.ne_nil _, ?_,
    fun hm => ?_, fun hnot => ?_⟩
  · rw [hspan, extent_join hfirst.ne_nil hlast, hfirst.span]
  · rw [hfirst.tokens] at hclosed
    have hsplit : inside ++ ((closes ++ mid) ++ last) = (inside ++ closes) ++ (mid ++ last) := by
      simp only [List.append_assoc]
    obtain rfl := hclosed.nothing_before hfirst.opens (hsplit ▸ hm)
    rw [List.nil_append] at hall
    have hclosed' := h.closed
    rw [hall] at hclosed'
    obtain rfl := hclosed'.nothing_after hcloses hm
    rw [List.append_nil] at hall
    exact hall ▸ h.loosen (Nat.le_refl 1) h.level_bounds.1
  · rw [hjoined] at hnot
    cases hnot

/-- Every expression is spread over its tokens: only parentheses are left out by its span. -/
theorem DerivesExpr.spread {s : Source} (h : DerivesExpr k n ts e) :
    ∀ {i j : Nat}, i ≤ s.length → s.LexedAfter i ts j →
      ∃ opens inside closes, e.Spread k ts opens inside closes := by
  -- Where the tokens stand matters to operations only, whose span is the least one over two others.
  induction h using DerivesExpr.rec (motive_2 := fun _ _ _ _ => True)
    (motive_3 := fun _ _ _ _ => True) with
  | number k value a => exact fun _ _ => ⟨_, _, _, (DerivesExpr.number k value a).spread_self rfl⟩
  | string k value a => exact fun _ _ => ⟨_, _, _, (DerivesExpr.string k value a).spread_self rfl⟩
  | true k a => exact fun _ _ => ⟨_, _, _, (DerivesExpr.true k a).spread_self rfl⟩
  | false k a => exact fun _ _ => ⟨_, _, _, (DerivesExpr.false k a).spread_self rfl⟩
  | null k a => exact fun _ _ => ⟨_, _, _, (DerivesExpr.null k a).spread_self rfl⟩
  | name k word a => exact fun _ _ => ⟨_, _, _, (DerivesExpr.name k word a).spread_self rfl⟩
  | group a b h ih =>
    intro i j hi hl
    obtain ⟨l, -, -, -, hlen, hl⟩ := hl.uncons hi
    obtain ⟨m, hm, -⟩ := hl.split hlen
    obtain ⟨opens, inside, closes, hspread⟩ := ih hlen hm
    exact ⟨_, _, _, hspread.group a b⟩
  | @call k ts us callee args a b hc ha ihc =>
    intro i j hi hl
    obtain ⟨m, hm, -⟩ := hl.split hi
    obtain ⟨opens, inside, closes, hspread⟩ := ihc hi hm
    have hus : Token.mark "(" a :: (us ++ [.mark ")" b]) =
        (.mark "(" a :: us) ++ ([.mark ")" b] ++ []) := rfl
    have hcall := hspread.joined hc.closed hus (List.cons_ne_nil _ _) nofun (.call a b hc ha) rfl
      rfl
    exact ⟨_, _, _, hcall⟩
  | unary op a h ih => exact fun _ _ => ⟨_, _, _, (DerivesExpr.unary op a h).spread_self rfl⟩
  | @binary k n ts us left right op a hn hl hr ihl ihr =>
    intro i j hi hlex
    obtain ⟨m, hm, hlex⟩ := hlex.split hi
    obtain ⟨l, -, -, hml, hlen, hlex⟩ := hlex.uncons (hm.bounds hi).2
    obtain ⟨opens, inside, closes, hleft⟩ := ihl hi hm
    obtain ⟨opens', inside', closes', hright⟩ := ihr hlen hlex
    have hspan := (hl.spanned hi hm).within.cover (hr.spanned hlen hlex).within hml
    have hstop : (expr right).span.stop = (extent inside').stop := congrArg Span.stop hright.span
    have hus : Token.mark op.symbol a :: us =
        (.mark op.symbol a :: opens') ++ (inside' ++ closes') := by rw [hright.tokens]; rfl
    have hbinary := hleft.joined hl.closed hus hright.ne_nil hright.closes (.binary a hn hl hr)
      (hspan.trans (congrArg (Span.mk _) hstop)) rfl
    exact ⟨_, _, _, hbinary⟩
  | assign word a b h ih =>
    exact fun _ _ => ⟨_, _, _, (DerivesExpr.assign word a b h).spread_self rfl⟩
  | tighter hn h ih => exact ih
  | single | cons | none | some => trivial

end Expressions

end BrookSyntax
