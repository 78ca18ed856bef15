import BrookSyntax.Proofs.Tokens

namespace BrookSyntax

namespace Position

variable (p : Position) (t : Text)

theorem foldl_next_offset : (t.foldl next p).offset = p.offset + t.length := by
  induction t generalizing p with
  | nil => rfl
  | cons u rest ih =>
    have hnext : (p.next u).offset = p.offset + 1 := by
      rw [next]
      split <;> rfl
    rw [List.foldl_cons, ih, hnext, List.length_cons]
    omega

theorem foldl_next_line : (t.foldl next p).line = p.line + t.count CodeUnit.newline := by
  induction t generalizing p with
  | nil => rfl
  | cons u rest ih =>
    rw [List.foldl_cons, ih, next]
    by_cases hu : u = CodeUnit.newline
    · rw [if_pos hu, hu, List.count_cons_self]
      dsimp only
      omega
    · rw [if_neg hu, List.count_cons_of_ne hu]

/-- The place some lines and units further on, in the same column. -/
def shift (lines units : Nat) (p : Position) : Position :=
  ⟨p.line + lines, p.col, p.offset + units⟩

theorem foldl_next_shift (lines units : Nat) :
    t.foldl next (p.shift lines units) = (t.foldl next p).shift lines units := by
  induction t generalizing p with
  | nil => rfl
  | cons u rest ih =>
    have hnext : (p.shift lines units).next u = (p.next u).shift lines units := by
      rw [next, next, shift]
      split <;> simp only [shift, Nat.add_right_comm]
    rw [List.foldl_cons, List.foldl_cons, hnext, ih]

/-- Places that are moved keep their order by offsets; those that fall together become equal. -/
structure InOrder (f : Position → Position) : Prop where
  le : ∀ p q : Position, p.offset ≤ q.offset → (f p).offset ≤ (f q).offset
  lt : ∀ p q : Position, p.offset < q.offset → (f p).offset < (f q).offset ∨ f p = f q

/-- A choice between two places by their offsets may be made after they are moved. -/
theorem InOrder.pick {f : Position → Position} (hf : InOrder f) {p q x y : Position}
    (h : f p = f q → f x = f y) :
    f (if p.offset < q.offset then x else y) =
      if (f p).offset < (f q).offset then f x else f y := by
  by_cases hpq : p.offset < q.offset
  · rw [if_pos hpq]
    obtain hlt | heq := hf.lt p q hpq
    · rw [if_pos hlt]
    · rw [h heq, ite_self]
  · have hle := hf.le q p (Nat.le_of_not_lt hpq)
    rw [if_neg hpq, if_neg (Nat.not_lt_of_le hle)]

end Position

namespace Source

theorem position_offset (s : Source) (i : Nat) : (s.position i).offset = min i s.length := by
  rw [position_eq, Position.foldl_next_offset, List.length_take, length_eq]
  exact Nat.zero_add _

theorem position_min (s : Source) (i : Nat) : s.position (min i s.length) = s.position i := by
  simp only [position, Nat.min_assoc, Nat.min_self]

theorem position_inOrder (s : Source) {f : Nat → Nat} (hf : ∀ i j, i ≤ j → f i ≤ f j) :
    Position.InOrder fun p => s.position (f p.offset) := by
  have hle {i j : Nat} (h : i ≤ j) : min (f i) s.length ≤ min (f j) s.length := by
    have := hf i j h
    omega
  constructor
  · intro p q h
    simpa only [position_offset] using hle h
  · intro p q h
    simp only [position_offset]
    obtain hlt | heq := Nat.lt_or_eq_of_le (hle (Nat.le_of_lt h))
    · exact .inl hlt
    · exact .inr (by rw [← s.position_min, heq, s.position_min])

theorem length_ofText (t : Text) : (ofText t).length = t.length := length_eq _

theorem position_after_lines (a b : Text) (i : Nat) :
    (ofText (a ++ CodeUnit.newline :: b)).position (a.length + 1 + i) =
      ((ofText b).position i).shift (a.count CodeUnit.newline + 1) (a.length + 1) := by
  have htake : (a ++ CodeUnit.newline :: b).take (a.length + 1 + i) =
      a ++ CodeUnit.newline :: b.take i := by
    rw [Nat.add_assoc, List.take_length_add_append, Nat.add_comm 1 i, List.take_succ_cons]
  have hline := Position.foldl_next_line .start a
  have hoffset := Position.foldl_next_offset .start a
  have hnext : (a.foldl Position.next .start).next CodeUnit.newline =
      Position.start.shift (a.count CodeUnit.newline + 1) (a.length + 1) := by
    rw [Position.next, if_pos rfl, hline, hoffset]
    rfl
  rw [position_eq, position_eq]
  change ((a ++ CodeUnit.newline :: b).take (a.length + 1 + i)).foldl _ _ = _
  rw [htake, List.foldl_append, List.foldl_cons, hnext, Position.foldl_next_shift]
  rfl

end Source

end BrookSyntax
