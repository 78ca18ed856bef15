import BrookSyntax.Proofs.SpanNesting

namespace BrookSyntax

open BrookSyntax.Parser Source

/-- The block was made for a conditional after `else`: it has the span of its only statement. -/
def Block.IsChained (body : Block) : Prop :=
  ∃ condition thenBlock elseBlock a,
    body = .mk [.conditional condition thenBlock elseBlock a] a

namespace Node.ReadAt

open Grammar

variable {s : Source} {i j : Nat}

theorem offsets {q : Prop} {k : Nat} {n : Node} (h : n.ReadAt s q k i j) (hn : ∀ e, n ≠ .expr e) :
    n.span.start.offset = i ∧ n.span.stop.offset = j := by
  obtain ⟨hij, hj⟩ := h.bounds
  rw [h.ends hn, position_offset, position_offset]
  omega

theorem statement_eq {stmt : Stmt} (h : (Node.stmt stmt).ReadAt s True 128 i j) :
    statement s ⟨i, 0⟩ = .ok ⟨j, 0⟩ stmt := by
  cases h with
  | stmt hi hl h hf => exact statement_accepts (c := ⟨i, 0⟩) hi rfl hl h (hf trivial)

/-- A block is between braces and is read as a statement, or it is a conditional after `else`. -/
theorem block_cases {body : Block} (h : (Node.block body).ReadAt s True 128 i j) :
    (s.hasAt i "\x7b" ∧ statement s ⟨i, 0⟩ = .ok ⟨j, 0⟩ (.block body)) ∨
      (s.hasAt i "if" ∧ body.IsChained) := by
  cases h with
  | block hi hl h =>
    have hinner := InnerStmt.ofLevels_complete 128
    have hok := blockWith_accepts hinner (c := ⟨i, 0⟩) hi rfl hl h trivial
    obtain ⟨a, rest, rfl⟩ := h.starts
    obtain ⟨k, hbrace⟩ := hl.head
    exact .inl ⟨hbrace.hasAt_mark.1, choice_take (map_eq_ok.2 ⟨body, hok, rfl⟩)⟩
  | chained hi hl h =>
    refine .inr ⟨?_, _, _, _, _, rfl⟩
    cases h with
    | conditional =>
      obtain ⟨k, t, ⟨rfl, -⟩, hat, -⟩ := hl.head
      exact hat

end Node.ReadAt

namespace Grammar

/-- Every statement of a program, however deep inside others, is read again in place: from where its
span starts up to where it stops. So is every block between braces; one that was made for a
conditional after `else` has no text of its own. -/
theorem statements_reparse {s : Source} {o : Nat} {d : Cursor} {p : Program} (ho : o ≤ s.length)
    (hp : program s ⟨o, 0⟩ = .ok d p) :
    (∀ stmt, (Node.program p).Contains (.stmt stmt) →
      statement s ⟨stmt.span.start.offset, 0⟩ = .ok ⟨stmt.span.stop.offset, 0⟩ stmt) ∧
    ∀ body, (Node.program p).Contains (.block body) →
      (s.hasAt body.span.start.offset "\x7b" ∧
        statement s ⟨body.span.start.offset, 0⟩ =
          .ok ⟨body.span.stop.offset, 0⟩ (.block body)) ∨
      (s.hasAt body.span.start.offset "if" ∧ body.IsChained) := by
  obtain ⟨ts, m, hl, ht, hs, hd, -⟩ := program_lexed ho hp
  have hm := (hl.bounds ho).2
  rw [hd] at ht
  have hrow := hs.row (q := True) ho hl fun _ => ht.noElse hm
  -- A node of the tree that is no expression stands between the offsets of its span.
  have hread {n : Node} (hn : ∀ e, n ≠ .expr e) (hp : ∀ p, n ≠ .program p)
      (h : (Node.program p).Contains n) :
      n.ReadAt s True 128 n.span.start.offset n.span.stop.offset := by
    cases h with
    | self => exact absurd rfl (hp p)
    | child hc h =>
      obtain ⟨a, b, hr⟩ := hrow.mem hc
      obtain ⟨a, b, hr⟩ | ⟨e, -, -, -, he⟩ := hr.of_contains h
      · obtain ⟨rfl, rfl⟩ := hr.offsets hn
        exact hr
      · obtain ⟨e', he'⟩ := he.of_expr
        exact absurd he' (hn e')
  exact ⟨fun stmt h => (hread (by simp) (by simp) h).statement_eq,
    fun body h => (hread (by simp) (by simp) h).block_cases⟩

theorem statements_reparse_else_if :
    ∃ p, program (.ofText "if a { b; } else if c {}") ⟨0, 0⟩ = .ok ⟨24, 0⟩ p ∧
      (∀ stmt, (Node.program p).Contains (.stmt stmt) →
        statement (.ofText "if a { b; } else if c {}") ⟨stmt.span.start.offset, 0⟩ =
          .ok ⟨stmt.span.stop.offset, 0⟩ stmt) ∧
      ∀ body, (Node.program p).Contains (.block body) → ¬ body.IsChained →
        statement (.ofText "if a { b; } else if c {}") ⟨body.span.start.offset, 0⟩ =
          .ok ⟨body.span.stop.offset, 0⟩ (.block body) := by
  have hstop : (program (.ofText "if a { b; } else if c {}") ⟨0, 0⟩).stop? = some ⟨24, 0⟩ := by
    decide +kernel
  obtain ⟨p, hp⟩ := Result.ok_of_stop hstop
  obtain ⟨hstmts, hblocks⟩ := statements_reparse (Nat.zero_le _) hp
  refine ⟨p, hp, hstmts, fun body hbody hchained => ?_⟩
  obtain ⟨-, hok⟩ | ⟨-, h⟩ := hblocks body hbody
  · exact hok
  · exact absurd h hchained

end Grammar

end BrookSyntax
