import BrookSyntax.Proofs.Derivation
import BrookSyntax.Proofs.Scanning

namespace BrookSyntax

open BrookSyntax.Parser Source

namespace Parser

variable {α : Type} {s : Source} {c d : Cursor}

theorem choice_literals_eq_ok {text : α → Text} {xs : List α} {x : α} (hc : c.offset ≤ s.length) :
    choice (xs.map fun x => (fun _ => x) <$> literal (text x)) s c = .ok d x ↔
      xs.find? (fun x => s.hasAt c.offset (text x)) = some x ∧
        ⟨c.offset + (text x).length, c.depth⟩ = d := by
  induction xs with
  | nil =>
    simp only [List.map_nil, List.find?_nil, reduceCtorEq, false_and, iff_false]
    exact choice_nil_ne_ok
  | cons y ys ih =>
    rw [List.map_cons, choice_cons_eq_ok, map_eq_ok, ih, List.find?_cons]
    simp only [literal_eq_ok hc]
    cases hat : s.hasAt c.offset (text y) with
    | true =>
      simp only [true_and, Option.some.injEq]
      constructor
      · rintro (⟨t, ⟨hd, -⟩, rfl⟩ | ⟨hdec, -⟩)
        · exact ⟨rfl, hd⟩
        · obtain ⟨f, hf, -⟩ := hdec
          have hok : ((fun _ => y) <$> literal (text y)) s c = .ok _ y :=
            map_eq_ok.2 ⟨text y, (literal_eq_ok hc).2 ⟨hat, rfl, rfl⟩, rfl⟩
          rw [hok] at hf
          cases hf
      · rintro ⟨rfl, hd⟩
        exact .inl ⟨text y, ⟨hd, rfl⟩, rfl⟩
    | false =>
      simp only [Bool.false_eq_true, false_and, exists_false, false_or]
      exact ⟨fun h => h.2, fun h => ⟨(literal_declines hat).map _, h⟩⟩

theorem choice_literals_declines {text : α → Text} {xs : List α}
    (h : ∀ x ∈ xs, s.hasAt c.offset (text x) = false) :
    (choice (xs.map fun x => (fun _ => x) <$> literal (text x))).Declines s c := by
  apply Declines.choice
  intro p hp
  obtain ⟨x, hx, rfl⟩ := List.mem_map.1 hp
  exact (literal_declines (h x hx)).map _

end Parser

theorem BinaryOp.symbol_mem (op : BinaryOp) : op.symbol ∈ marks := by
  cases op <;> decide

theorem UnaryOp.symbol_mem (op : UnaryOp) : op.symbol ∈ marks := by
  cases op <;> decide

theorem BinaryOp.symbol_injective {op op' : BinaryOp} (h : op.symbol = op'.symbol) : op = op' := by
  revert h
  cases op <;> cases op' <;> decide

theorem marks_extension {m m' : Text} (hm : m ∈ marks) (hm' : m' ∈ marks) (h : m <+: m') :
    m' = m ∨ m' = m ++ "=" := by
  have hall : ∀ m ∈ marks, ∀ m' ∈ marks, m <+: m' → m' = m ∨ m' = m ++ "=" := by decide
  exact hall m hm m' hm' h

/-- An operator stands after those of its level that start with it. -/
theorem levels_ordered {ops : List BinaryOp} {op : BinaryOp} {m : Text}
    (hops : ops ∈ BinaryOp.levels) (hop : op ∈ ops) (hm : m ∈ marks) (h : op.symbol <+: m) :
    m = op.symbol ∨ ∃ o ∈ ops.takeWhile (· ≠ op), o.symbol = m := by
  have hall : ∀ ops ∈ BinaryOp.levels, ∀ op ∈ ops, ∀ m ∈ marks, op.symbol <+: m →
      m = op.symbol ∨ ∃ o ∈ ops.takeWhile (· ≠ op), o.symbol = m := by decide
  exact hall ops hops op hop m hm h

namespace Source

variable {s : Source} {i : Nat} {ops : List BinaryOp} {op : BinaryOp}

theorem TokenAt.mark_unique {m m' : Text} {j k : Nat} (h : s.TokenAt i (.mark m) j)
    (h' : s.TokenAt i (.mark m') k) : m = m' := by
  have length_le {m m' : Text} {j k : Nat} (h : s.TokenAt i (.mark m) j)
      (h' : s.TokenAt i (.mark m') k) : m'.length ≤ m.length := by
    apply Nat.le_of_not_lt
    intro hlt
    have hat := h'.hasAt_mark.1
    obtain ⟨t, ⟨rfl, hm⟩, -⟩ := h'
    rw [h.mark_longest hm hlt] at hat
    cases hat
  exact eq_of_hasAt h.hasAt_mark.1 h'.hasAt_mark.1
    (Nat.le_antisymm (length_le h' h) (length_le h h'))

/-- The operator of a level that is found first stands as a token. -/
theorem tokenAt_of_find (hops : ops ∈ BinaryOp.levels) (hi : s.NoTriviaAt i)
    (h : ops.find? (fun op => s.hasAt i op.symbol) = some op) :
    op ∈ ops ∧ s.TokenAt i (.mark op.symbol) (i + op.symbol.length) := by
  obtain ⟨hat, before, after, rfl, hbefore⟩ := List.find?_eq_some_iff_append.1 h
  have hop : op ∈ before ++ op :: after := by simp
  refine ⟨hop, tokenAt_mark op.symbol_mem hat ?_ hi.comment⟩
  intro m hm hpre hne
  obtain heq | ⟨o, ho, rfl⟩ := levels_ordered hops hop hm hpre
  · exact absurd heq hne
  · have hnot : ∀ o ∈ before, decide (o ≠ op) = true := by
      intro o ho
      have hof := hbefore o ho
      apply decide_eq_true
      rintro rfl
      simp [hat] at hof
    rw [List.takeWhile_append_of_pos hnot] at ho
    simp only [ne_eq, not_true_eq_false, decide_false, Bool.false_eq_true, not_false_eq_true,
      List.takeWhile_cons_of_neg, List.append_nil] at ho
    simpa using hbefore o ho

theorem find_of_tokenAt (hops : ops ∈ BinaryOp.levels) (hop : op ∈ ops) {j : Nat}
    (h : s.TokenAt i (.mark op.symbol) j) :
    ops.find? (fun op => s.hasAt i op.symbol) = some op := by
  cases hf : ops.find? (fun op => s.hasAt i op.symbol) with
  | none => exact absurd h.hasAt_mark.1 (by simpa using List.find?_eq_none.1 hf op hop)
  | some o =>
    obtain ⟨-, ho⟩ := tokenAt_of_find hops h.noTrivia hf
    rw [BinaryOp.symbol_injective (ho.mark_unique h)]

end Source

namespace Grammar

variable {s : Source} {c d : Cursor}

theorem binaryOp_eq_ok {ops : List BinaryOp} {op : BinaryOp} (hops : ops ∈ BinaryOp.levels)
    (hc : c.offset ≤ s.length) (hn : s.NoTriviaAt c.offset) :
    binaryOp ops s c = .ok d op ↔
      op ∈ ops ∧ s.TokenAt c.offset (.mark op.symbol) d.offset ∧ d.depth = c.depth := by
  rw [binaryOp, choice_literals_eq_ok hc]
  constructor
  · rintro ⟨hf, rfl⟩
    obtain ⟨hop, ht⟩ := tokenAt_of_find hops hn hf
    exact ⟨hop, ht, rfl⟩
  · rintro ⟨hop, ht, hd⟩
    obtain ⟨-, hj⟩ := ht.hasAt_mark
    refine ⟨find_of_tokenAt hops hop ht, ?_⟩
    rw [← hj, ← hd]

theorem unaryOp_eq_ok {op : UnaryOp} (hc : c.offset ≤ s.length) :
    unaryOp s c = .ok d op ↔
      s.hasAt c.offset op.symbol = true ∧ ⟨c.offset + op.symbol.length, c.depth⟩ = d := by
  rw [unaryOp, choice_literals_eq_ok hc]
  constructor
  · rintro ⟨hf, hd⟩
    exact ⟨by simpa using List.find?_some hf, hd⟩
  · rintro ⟨hat, hd⟩
    refine ⟨?_, hd⟩
    cases op with
    | not => rw [UnaryOp.all, List.find?_cons, hat]
    | neg =>
      have hnot : s.hasAt c.offset UnaryOp.not.symbol = false := by
        cases h : s.hasAt c.offset UnaryOp.not.symbol with
        | false => rfl
        | true =>
          have heq := eq_of_hasAt h hat rfl
          exact absurd heq (by decide)
      rw [UnaryOp.all, List.find?_cons, hnot, List.find?_cons, hat]

theorem assignSign_eq_ok {t : Text} (hc : c.offset ≤ s.length) :
    assignSign s c = .ok d t ↔
      s.TokenAt c.offset (.mark "=") d.offset ∧ d.depth = c.depth ∧ t = "=" := by
  rw [assignSign, literalBefore_eq_ok hc]
  constructor
  · rintro ⟨hat, hf, rfl, rfl⟩
    refine ⟨tokenAt_mark (by decide) hat ?_ ?_, rfl, rfl⟩
    · intro m hm hpre hne
      obtain heq | rfl := marks_extension (by decide) hm hpre
      · exact absurd heq hne
      · rw [Bool.eq_false_iff]
        intro hat'
        have hu := (hasAt_cons.1 (hasAt_append.1 hat').2).1
        rw [hu] at hf
        cases hf
    · rw [Bool.eq_false_iff]
      intro hcom
      have hu := (hasAt_cons.1 hcom).1
      rw [(hasAt_cons.1 hat).1] at hu
      cases hu
  · rintro ⟨ht, hd, rfl⟩
    obtain ⟨hat, hj⟩ := ht.hasAt_mark
    refine ⟨hat, ?_, by rw [← hj, ← hd], rfl⟩
    rw [beq_eq_false_iff_ne]
    intro hu
    have heq : s.hasAt c.offset "==" = true :=
      hasAt_append.2 ⟨hat, hasAt_cons.2 ⟨hu, rfl⟩⟩
    have hm : Text.ofString "==" ∈ marks := by decide
    rw [ht.mark_longest hm (by decide)] at heq
    cases heq

end Grammar

end BrookSyntax
