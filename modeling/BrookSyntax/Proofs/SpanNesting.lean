import BrookSyntax.Proofs.Nodes
import BrookSyntax.Proofs.Places

namespace BrookSyntax

open Source

/-- A stretch that is not empty lies between two offsets. -/
structure Span.Within (a : Span) (i j : Nat) : Prop where
  start_le : i ≤ a.start.offset
  nonempty : a.start.offset < a.stop.offset
  stop_le : a.stop.offset ≤ j

theorem Source.within_positions {s : Source} {i j : Nat} (hij : i < j) (hj : j ≤ s.length) :
    Span.Within ⟨s.position i, s.position j⟩ i j := by
  constructor
  · rw [position_offset]
    omega
  · rw [position_offset, position_offset]
    omega
  · rw [position_offset]
    omega

theorem Source.TokenAt.slice {s : Source} {i j : Nat} {kind : TokenKind}
    (h : s.TokenAt i kind j) : kind.IsText (s.slice i j) := by
  obtain ⟨t, ht, hat, rfl, -⟩ := h
  rwa [slice_of_hasAt hat]

/-- Where one stretch comes before another one, the least stretch over both goes from the start of
the first to the stop of the second. -/
theorem Span.Within.cover {a b : Span} {i j k l : Nat} (ha : a.Within i j) (hb : b.Within k l)
    (hjk : j ≤ k) : a.cover b = ⟨a.start, b.stop⟩ := by
  obtain ⟨-, hlt, hstop⟩ := ha
  obtain ⟨hstart, hlt', -⟩ := hb
  rw [Span.cover, if_neg (by omega), if_pos (by omega)]

namespace Node

/-- The token that a leaf is. -/
def leaf? : Node → Option TokenKind
  | expr (.number value _) => some (.number value)
  | expr (.string value _) => some (.string value)
  | expr (.bool true _) => some (.keyword "true")
  | expr (.bool false _) => some (.keyword "false")
  | expr (.null _) => some (.keyword "null")
  | expr (.name n) => some (.name n.text)
  | _ => none

/-- A node is where its span says: the ends have the places of their offsets, only a program may be
empty, the children lie inside in order and apart from one another, and a leaf covers its text. -/
structure Placed (s : Source) (n : Node) : Prop where
  start : n.span.start = s.position n.span.start.offset
  stop : n.span.stop = s.position n.span.stop.offset
  nonempty : (∀ p, n ≠ program p) → n.span.start.offset < n.span.stop.offset
  inside : ∀ m ∈ n.children,
    n.span.start.offset ≤ m.span.start.offset ∧ m.span.stop.offset ≤ n.span.stop.offset
  ordered : n.children.Pairwise fun m l => m.span.stop.offset ≤ l.span.start.offset
  text : ∀ kind, n.leaf? = some kind →
    kind.IsText (s.slice n.span.start.offset n.span.stop.offset)

/-- The node and all nodes below it are where their spans say, between two offsets. -/
structure Spanned (s : Source) (n : Node) (i j : Nat) : Prop where
  placed : ∀ m, n.Contains m → m.Placed s
  within : n.span.Within i j

section Spans

variable {s : Source} {n : Node} {ns : List Node} {i j k l : Nat}

theorem Row.le (h : Row (fun n => n.span.Within) i ns j) : i ≤ j := by
  induction h with
  | nil hij => exact hij
  | cons hij h _ ih =>
    obtain ⟨hstart, hlt, hstop⟩ := h
    omega

theorem Row.inside (h : Row (fun n => n.span.Within) i ns j) :
    ∀ m ∈ ns, i ≤ m.span.start.offset ∧ m.span.stop.offset ≤ j := by
  induction h with
  | nil => simp
  | cons hij h hs ih =>
    have hle := hs.le
    obtain ⟨hstart, hlt, hstop⟩ := h
    rw [List.forall_mem_cons]
    refine ⟨by omega, fun m hm => ?_⟩
    have := ih m hm
    omega

theorem Row.ordered (h : Row (fun n => n.span.Within) i ns j) :
    ns.Pairwise fun m l => m.span.stop.offset ≤ l.span.start.offset := by
  induction h with
  | nil => exact .nil
  | cons hij h hs ih =>
    refine .cons (fun m hm => ?_) ih
    exact Nat.le_trans h.stop_le (hs.inside m hm).1

theorem Placed.of_row (hspan : n.span = ⟨s.position i, s.position j⟩) (hj : j ≤ s.length)
    (hne : (∀ p, n ≠ program p) → i < j) (hrow : Row (fun n => n.span.Within) i n.children j)
    (htext : ∀ kind, n.leaf? = some kind → kind.IsText (s.slice i j)) : n.Placed s := by
  have hij := hrow.le
  have hstart : n.span.start.offset = i := by
    rw [hspan, position_offset]
    omega
  have hstop : n.span.stop.offset = j := by
    rw [hspan, position_offset]
    omega
  refine ⟨?_, ?_, ?_, ?_, hrow.ordered, ?_⟩
  · rw [hstart, hspan]
  · rw [hstop, hspan]
  · rwa [hstart, hstop]
  · rw [hstart, hstop]
    exact hrow.inside
  · rwa [hstart, hstop]

theorem Spanned.of_row (hspan : n.span = ⟨s.position i, s.position j⟩) (hij : i < j)
    (hj : j ≤ s.length) (hrow : Row (Spanned s) i n.children j)
    (htext : ∀ kind, n.leaf? = some kind → kind.IsText (s.slice i j)) : n.Spanned s i j := by
  constructor
  · intro m hm
    cases hm with
    | self => exact .of_row hspan hj (fun _ => hij) (hrow.imp fun _ _ _ h => h.within) htext
    | child hc hm =>
      obtain ⟨a, b, h⟩ := hrow.mem hc
      exact h.placed m hm
  · rw [hspan]
    exact within_positions hij hj

theorem Spanned.of_token {kind : TokenKind} (hi : i ≤ s.length) (h : s.TokenAt i kind j)
    (hspan : n.span = ⟨s.position i, s.position j⟩) (hc : n.children = [])
    (hleaf : n.leaf? = some kind) : n.Spanned s i j := by
  obtain ⟨hij, hj⟩ := h.bounds hi
  refine .of_row hspan hij hj ?_ ?_
  · rw [hc]
    exact .nil (Nat.le_of_lt hij)
  · intro kind' h'
    rw [hleaf] at h'
    cases h'
    exact h.slice

/-- The offsets around a node may be moved as far as its span allows. -/
theorem Spanned.around (h : n.Spanned s i j) (hk : k ≤ n.span.start.offset)
    (hl : n.span.stop.offset ≤ l) : n.Spanned s k l :=
  ⟨h.placed, hk, h.within.nonempty, hl⟩

theorem Spanned.mono (h : n.Spanned s i j) (hki : k ≤ i) (hjl : j ≤ l) : n.Spanned s k l :=
  h.around (Nat.le_trans hki h.within.start_le) (Nat.le_trans h.within.stop_le hjl)

theorem Spanned.self (h : n.Spanned s i j) : n.Placed s := h.placed n (.self n)

theorem text_of_none {t : Text} (h : n.leaf? = none) (kind : TokenKind)
    (hk : n.leaf? = some kind) : kind.IsText t := by
  rw [h] at hk
  cases hk

theorem Spanned.ends {e : Expr} (h : (expr e).Spanned s i j) :
    e.span = ⟨s.position e.span.start.offset, s.position e.span.stop.offset⟩ :=
  congr (congrArg Span.mk h.self.start) h.self.stop

theorem Spanned.bounds {e : Expr} (h : (expr e).Spanned s i j) :
    i ≤ e.span.start.offset ∧ e.span.start.offset < e.span.stop.offset ∧
      e.span.stop.offset ≤ j := ⟨h.within.start_le, h.within.nonempty, h.within.stop_le⟩

end Spans

section Expressions

variable {s : Source} {i j k l : Nat}

theorem Spanned.of_extent {n : Node} {ts : List Token} (hi : i ≤ s.length) (hl : s.LexedAt i ts j)
    (hspan : n.span = Token.extent ts) (hrow : Row (Spanned s) i n.children j)
    (hleaf : n.leaf? = none) : n.Spanned s i j := by
  obtain ⟨hij, hj⟩ := hl.bounds hi
  exact .of_row (hspan.trans hl.extent) hij hj hrow (text_of_none hleaf)

/-- A call starts where the span of the callee does, which need not be its first token. -/
theorem Spanned.call {callee : Expr} {args : List Expr} {stop : Position}
    (hc : (expr callee).Spanned s i j) (ha : Row (Spanned s) j (args.map .expr) k)
    (hstop : stop = s.position k) (hk : k ≤ s.length) :
    (expr (.call callee args ⟨callee.span.start, stop⟩)).Spanned s i k := by
  obtain ⟨hle, hlt, hle'⟩ := hc.bounds
  have hjk := (ha.imp fun _ _ _ h => h.within).le
  have hspan : (⟨callee.span.start, stop⟩ : Span) =
      ⟨s.position callee.span.start.offset, s.position k⟩ :=
    congr (congrArg (Span.mk ·.start) hc.ends) hstop
  have hcall := Spanned.of_row (n := .expr (.call callee args _)) hspan (by omega) hk
    (.cons (Nat.le_refl _) (hc.around (Nat.le_refl _) hle') ha) (text_of_none rfl)
  exact hcall.mono hle (Nat.le_refl k)

theorem Spanned.binary {op : BinaryOp} {left right : Expr} (hl : (expr left).Spanned s i j)
    (hr : (expr right).Spanned s k l) (hjk : j ≤ k) (hlen : l ≤ s.length) :
    (expr (.binary op left right (left.span.cover right.span))).Spanned s i l := by
  obtain ⟨hle, hlt, hstop⟩ := hl.bounds
  obtain ⟨hstart, hlt', hle'⟩ := hr.bounds
  have hspan : left.span.cover right.span =
      ⟨s.position left.span.start.offset, s.position right.span.stop.offset⟩ :=
    (hl.within.cover hr.within hjk).trans
      (congr (congrArg (Span.mk ·.start) hl.ends) (congrArg Span.stop hr.ends))
  have hright := Row.cons (Nat.le_trans hstop (Nat.le_trans hjk hstart))
    (hr.around (Nat.le_refl _) (Nat.le_refl _)) (.nil (Nat.le_refl _))
  have hrow := Row.cons (Nat.le_refl _) (hl.around (Nat.le_refl _) (Nat.le_refl _)) hright
  have hbinary := Spanned.of_row (n := .expr (.binary op left right _)) hspan (by omega)
    (by omega) hrow (text_of_none rfl)
  exact hbinary.mono hle hle'

end Expressions

end Node

open Node

section Expressions

variable {s : Source} {i j k n : Nat} {ts : List Token}

theorem Source.LexedAfter.leaf {t : Token} {e : Expr} (hl : s.LexedAfter i [t] j)
    (hi : i ≤ s.length) (hspan : e.span = t.span) (hc : (expr e).children = [])
    (hleaf : (expr e).leaf? = some t.kind) : (expr e).Spanned s i j := by
  obtain ⟨k, ht, hts, -, -, hl⟩ := hl.uncons hi
  obtain rfl := hl.of_nil
  have hleaf := Spanned.of_token (n := .expr e) (skip_le hi) ht (hspan.trans hts) hc hleaf
  exact hleaf.mono (le_skip hi) (Nat.le_refl k)

/-- An expression and all expressions in it are where their spans say. Parentheses around it are not
part of its span. -/
theorem DerivesExpr.spanned {e : Expr} (h : DerivesExpr k n ts e) :
    ∀ {i j : Nat}, i ≤ s.length → s.LexedAfter i ts j → (expr e).Spanned s i j := by
  -- By induction on the derivation, for all offsets: a part starts where the one before it ends.
  induction h using DerivesExpr.rec
    (motive_2 := fun _ ts es _ => ∀ {i j : Nat}, i ≤ s.length → s.LexedAfter i ts j →
      Row (Spanned s) i (es.map .expr) j)
    (motive_3 := fun _ ts es _ => ∀ {i j : Nat}, i ≤ s.length → s.LexedAfter i ts j →
      Row (Spanned s) i (es.map .expr) j) with
  | number | string | true | false | null | name =>
    intro i j hi hl
    exact hl.leaf hi rfl rfl rfl
  | group a b h ih =>
    intro i j hi hl
    obtain ⟨l, -, -, hil, hlen, hl⟩ := hl.uncons hi
    obtain ⟨m, hm, hl⟩ := hl.split hlen
    exact (ih hlen hm).mono hil (hl.bounds (hm.bounds hlen).2).1
  | call a b hc ha ihc iha =>
    intro i j hi hl
    obtain ⟨m, hm, hl⟩ := hl.split hi
    obtain ⟨l, -, -, hml, hlen, hl⟩ := hl.uncons (hm.bounds hi).2
    obtain ⟨m', hm', hl⟩ := hl.split hlen
    obtain ⟨o, -, hb, hmo, holen, hl⟩ := hl.uncons (hm'.bounds hlen).2
    obtain rfl := hl.of_nil
    exact .call (ihc hi hm) (((iha hlen hm').widen hml).extend hmo) (congrArg Span.stop hb) holen
  | unary op a h ih =>
    intro i j hi hl
    have hat := hl.at hi (List.cons_ne_nil _ _)
    obtain ⟨l, hop, -, -, hlen, hl⟩ := hl.uncons hi
    have hrow := Row.cons (Nat.le_of_lt (hop.bounds (skip_le hi)).1) (ih hlen hl)
      (.nil (Nat.le_refl j))
    have hunary := Spanned.of_extent (n := .expr (.unary op _ _)) (skip_le hi) hat rfl hrow rfl
    exact hunary.mono (le_skip hi) (Nat.le_refl j)
  | binary a hn _ _ ihl ihr =>
    intro i j hi hl
    obtain ⟨m, hm, hl⟩ := hl.split hi
    obtain ⟨l, -, -, hml, hlen, hl⟩ := hl.uncons (hm.bounds hi).2
    exact .binary (ihl hi hm) (ihr hlen hl) hml (hl.bounds hlen).2
  | assign word a b h ih =>
    intro i j hi hl
    have hat := hl.at hi (List.cons_ne_nil _ _)
    obtain ⟨l, hname, ha, -, hlen, hl⟩ := hl.uncons hi
    obtain ⟨o, -, -, hlo, holen, hl⟩ := hl.uncons hlen
    have htarget := Spanned.of_token (n := .expr (.name ⟨word, a⟩)) (skip_le hi) hname ha rfl rfl
    have hrow := Row.cons (Nat.le_refl _) htarget (.cons hlo (ih holen hl) (.nil (Nat.le_refl j)))
    have hassign := Spanned.of_extent (n := .expr (.assign ⟨word, a⟩ _ _)) (skip_le hi) hat rfl hrow
      rfl
    exact hassign.mono (le_skip hi) (Nat.le_refl j)
  | tighter hn h ih => exact ih
  | single h ih hi hl => exact .cons (Nat.le_refl _) (ih hi hl) (.nil (Nat.le_refl _))
  | cons a h hs ih ihs hi hl =>
    obtain ⟨m, hm, hl⟩ := hl.split hi
    obtain ⟨l, -, -, hml, hlen, hl⟩ := hl.uncons (hm.bounds hi).2
    exact .cons (Nat.le_refl _) (ih hi hm) ((ihs hlen hl).widen hml)
  | none k hi hl =>
    obtain rfl := hl.of_nil
    exact .nil (Nat.le_refl _)
  | some h ih hi hl => exact ih hi hl

end Expressions

section Statements

variable {s : Source} {q : Prop} {i j k : Nat} {ts : List Token} {n m : Node}

theorem DerivesBlock.span {body : Block} (h : DerivesBlock k ts body) :
    body.span = Token.extent ts := by
  cases h
  rfl

theorem DerivesStmt.span {stmt : Stmt} (h : DerivesStmt k ts stmt) :
    stmt.span = Token.extent ts := by
  cases h with
  | block h => exact h.span
  | _ => rfl

theorem Node.ReadAt.ends (h : n.ReadAt s q k i j) (hn : ∀ e, n ≠ .expr e) :
    n.span = ⟨s.position i, s.position j⟩ := by
  cases h with
  | expr => exact absurd rfl (hn _)
  | stmt _ hl h => exact h.span.trans hl.extent
  | block _ hl h => exact h.span.trans hl.extent
  | chained _ hl h => exact h.span.trans hl.extent

theorem Node.ReadAt.bounds (h : n.ReadAt s q k i j) : i < j ∧ j ≤ s.length := by
  cases h with
  | expr hi hl | stmt hi hl | block hi hl | chained hi hl => exact hl.bounds hi

theorem Node.ReadAt.within (h : n.ReadAt s q k i j) : n.span.Within i j := by
  by_cases hn : ∃ e, n = .expr e
  · obtain ⟨e, rfl⟩ := hn
    cases h with
    | expr hi hl h => exact (h.spanned hi hl.after_here).within
  · rw [h.ends fun e he => hn ⟨e, he⟩]
    exact within_positions h.bounds.1 h.bounds.2

theorem Node.ReadAt.placed (h : n.ReadAt s q k i j) : n.Placed s := by
  by_cases hn : ∃ e, n = .expr e
  · obtain ⟨e, rfl⟩ := hn
    cases h with
    | expr hi hl h => exact (h.spanned hi hl.after_here).self
  · have hn : ∀ e, n ≠ .expr e := fun e he => hn ⟨e, he⟩
    have hleaf : n.leaf? = none := by
      cases h with
      | expr => exact absurd rfl (hn _)
      | stmt | block | chained => rfl
    exact .of_row (h.ends hn) h.bounds.2 (fun _ => h.bounds.1)
      ((h.row hn).imp fun _ _ _ h => h.within) (text_of_none hleaf)

theorem Node.ReadAt.placed_below (h : n.ReadAt s q k i j) (hm : n.Contains m) : m.Placed s := by
  obtain ⟨a, b, h⟩ | ⟨e, a, b, h, hm⟩ := h.of_contains hm
  · exact h.placed
  · cases h with
    | expr hi hl h => exact (h.spanned hi hl.after_here).placed m hm

end Statements

namespace Grammar

/-- Every node of a parsed tree is where its span says, between the cursors at the start and at the
end of the parse: its ends have the places of their offsets, the spans of its children lie in its
own one after the other, and the span of a leaf covers its text. -/
theorem spans_nested {s : Source} {c d : Cursor} (hc : c.offset ≤ s.length) :
    (∀ p, program s c = .ok d p → (∀ m, (Node.program p).Contains m → m.Placed s) ∧
      c.offset ≤ p.span.start.offset ∧ p.span.stop.offset ≤ d.offset) ∧
    (∀ stmt, statement s c = .ok d stmt → (∀ m, (Node.stmt stmt).Contains m → m.Placed s) ∧
      c.offset ≤ stmt.span.start.offset ∧ stmt.span.stop.offset ≤ d.offset) ∧
    ∀ e, expression s c = .ok d e → (∀ m, (Node.expr e).Contains m → m.Placed s) ∧
      c.offset ≤ e.span.start.offset ∧ e.span.stop.offset ≤ d.offset := by
  refine ⟨fun p hok => ?_, fun stmt hok => ?_, fun e hok => ?_⟩
  · obtain ⟨ts, m, hl, ht, hs, hd, hspan⟩ := program_lexed hc hok
    have hrow := (hs.row hc hl False.elim).extend (ht.bounds (hl.bounds hc).2).1
    have hplaced : (Node.program p).Placed s :=
      .of_row hspan (Nat.le_of_eq hd) (fun hp => absurd rfl (hp p))
        (hrow.imp fun _ _ _ h => h.within) (text_of_none rfl)
    refine ⟨fun m hm => ?_, ?_, ?_⟩
    · cases hm with
      | self => exact hplaced
      | child hc hm =>
        obtain ⟨a, b, h⟩ := hrow.mem hc
        exact h.placed_below hm
    · rw [hspan, Cursor.spanTo, position_offset]
      exact Nat.le_min.2 ⟨Nat.le_refl _, hc⟩
    · rw [hspan, Cursor.spanTo, position_offset]
      exact Nat.min_le_left _ _
  · obtain ⟨-, ts, hl, h⟩ := statement_reads hc rfl hok
    have hread := Node.ReadAt.stmt (q := False) hc hl h False.elim
    exact ⟨fun m hm => hread.placed_below hm, hread.within.start_le, hread.within.stop_le⟩
  · obtain ⟨-, ts, hl, h⟩ := expression_reads hc rfl hok
    have hread := Node.ReadAt.expr (q := False) hc hl h
    exact ⟨fun m hm => hread.placed_below hm, hread.within.start_le, hread.within.stop_le⟩

theorem spans_nested_call :
    ∃ p stmt e, program (.ofText "f(-(1));") ⟨0, 0⟩ = .ok ⟨8, 0⟩ p ∧
      statement (.ofText "f(-(1));") ⟨0, 0⟩ = .ok ⟨8, 0⟩ stmt ∧
      expression (.ofText "f(-(1));") ⟨0, 0⟩ = .ok ⟨7, 0⟩ e ∧
      (∀ m, (Node.program p).Contains m → m.Placed (.ofText "f(-(1));")) ∧
      (∀ m, (Node.stmt stmt).Contains m → m.Placed (.ofText "f(-(1));")) ∧
      (∀ m, (Node.expr e).Contains m → m.Placed (.ofText "f(-(1));")) ∧
      e.span.stop.offset ≤ 7 := by
  have hprogram : (program (.ofText "f(-(1));") ⟨0, 0⟩).stop? = some ⟨8, 0⟩ := by decide +kernel
  have hstatement : (statement (.ofText "f(-(1));") ⟨0, 0⟩).stop? = some ⟨8, 0⟩ := by
    decide +kernel
  have hexpression : (expression (.ofText "f(-(1));") ⟨0, 0⟩).stop? = some ⟨7, 0⟩ := by
    decide +kernel
  obtain ⟨p, hp⟩ := Result.ok_of_stop hprogram
  obtain ⟨stmt, hs⟩ := Result.ok_of_stop hstatement
  obtain ⟨e, he⟩ := Result.ok_of_stop hexpression
  have hexpr := (spans_nested (Nat.zero_le _)).2.2 e he
  exact ⟨p, stmt, e, hp, hs, he, ((spans_nested (Nat.zero_le _)).1 p hp).1,
    ((spans_nested (Nat.zero_le _)).2.1 stmt hs).1, hexpr.1, hexpr.2.2⟩

end Grammar

end BrookSyntax
