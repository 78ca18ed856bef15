import BrookSyntax.Position

namespace BrookSyntax

namespace Text

/-- The offsets after the newlines of a text that stands at the offset `i`. -/
def startsFrom (i : Nat) : Text → List Nat
  | [] => []
  | u :: rest =>
    if u = CodeUnit.newline then (i + 1) :: startsFrom (i + 1) rest else startsFrom (i + 1) rest

/-- The offsets where the lines of a text start. -/
def lineStarts (t : Text) : List Nat := 0 :: startsFrom 0 t

/-- The last line from `low` to `high` that does not start beyond `i`; at most a given number of
times the lines that are left are halved. -/
def lastStart (starts : Array Nat) (i : Nat) : Nat → Nat → Nat → Nat
  | 0, low, _ => low
  | n + 1, low, high =>
    if low < high then
      let middle := (low + high + 1) / 2
      if starts.getD middle 0 ≤ i then lastStart starts i n middle high
      else lastStart starts i n low (middle - 1)
    else low

theorem startsFrom_append (i : Nat) (a b : Text) :
    startsFrom i (a ++ b) = startsFrom i a ++ startsFrom (i + a.length) b := by
  induction a generalizing i with
  | nil => rfl
  | cons u rest ih =>
    have hlen : i + (u :: rest).length = i + 1 + rest.length := by
      rw [List.length_cons]
      omega
    rw [List.cons_append, startsFrom, startsFrom, ih, hlen]
    split <;> rfl

theorem mem_startsFrom {i x : Nat} {t : Text} (h : x ∈ startsFrom i t) :
    i < x ∧ x ≤ i + t.length := by
  induction t generalizing i with
  | nil => cases h
  | cons u rest ih =>
    have hrest (hx : x ∈ startsFrom (i + 1) rest) : i < x ∧ x ≤ i + (u :: rest).length := by
      obtain ⟨hlt, hle⟩ := ih hx
      rw [List.length_cons]
      omega
    rw [startsFrom] at h
    split at h
    · rcases List.mem_cons.1 h with rfl | h
      · rw [List.length_cons]
        omega
      · exact hrest h
    · exact hrest h

theorem lineStarts_append (a b : Text) :
    lineStarts (a ++ b) = lineStarts a ++ startsFrom a.length b := by
  rw [lineStarts, startsFrom_append, Nat.zero_add, lineStarts, List.cons_append]

theorem mem_lineStarts {x : Nat} {t : Text} (h : x ∈ lineStarts t) : x ≤ t.length := by
  rcases List.mem_cons.1 h with rfl | h
  · exact Nat.zero_le _
  · have := mem_startsFrom h
    omega

/-- The starts of the lines of a text are those up to an offset and those after it. -/
theorem lineStarts_split {t : Text} {c : Nat} (hc : c ≤ t.length) :
    lineStarts t = lineStarts (t.take c) ++ startsFrom c (t.drop c) := by
  have h := lineStarts_append (t.take c) (t.drop c)
  rwa [List.take_append_drop, List.length_take_of_le hc] at h

/-- The lines that start no later than `c` are those of the text up to `c`. -/
theorem lineStarts_le_iff {t : Text} {c k : Nat} (hc : c ≤ t.length)
    (hk : k < (lineStarts t).length) :
    (lineStarts t)[k] ≤ c ↔ k < (lineStarts (t.take c)).length := by
  have hget := List.getElem_of_eq (lineStarts_split hc) hk
  by_cases hlt : k < (lineStarts (t.take c)).length
  · have hle := mem_lineStarts (List.getElem_mem hlt)
    rw [List.length_take_of_le hc] at hle
    rw [hget, List.getElem_append_left hlt]
    exact iff_of_true hle hlt
  · rw [List.getElem_append_right (Nat.le_of_not_lt hlt)] at hget
    have hmem : (lineStarts t)[k] ∈ startsFrom c (t.drop c) := hget ▸ List.getElem_mem _
    have hgt := (mem_startsFrom hmem).1
    exact iff_of_false (Nat.not_le_of_lt hgt) hlt

/-- Halving finds the line `m` if it is the last one that does not start beyond `i`. -/
theorem lastStart_eq {starts : Array Nat} {i m n low high : Nat}
    (h : ∀ k ≤ high, starts.getD k 0 ≤ i ↔ k ≤ m) (hlow : low ≤ m) (hhigh : m ≤ high)
    (hn : high - low ≤ n) : lastStart starts i n low high = m := by
  induction n generalizing low high with
  | zero =>
    rw [lastStart]
    omega
  | succ n ih =>
    rw [lastStart]
    split
    · next hlt =>
      dsimp only
      have hmiddle := h ((low + high + 1) / 2) (by omega)
      split
      · next hle => exact ih h (hmiddle.1 hle) hhigh (by omega)
      · next hgt =>
        rw [hmiddle] at hgt
        exact ih (fun k hk => h k (by omega)) hlow (by omega) (by omega)
    · omega

/-- The line that is found for an offset has as many newlines before it as the offset. -/
theorem lastStart_lineStarts {t : Text} {c : Nat} (hc : c ≤ t.length) :
    lastStart (lineStarts t).toArray c (lineStarts t).toArray.size 0
        ((lineStarts t).toArray.size - 1) =
      (startsFrom 0 (t.take c)).length := by
  have hsize : (lineStarts (t.take c)).length ≤ (lineStarts t).length := by
    rw [lineStarts_split hc, List.length_append]
    exact Nat.le_add_right _ _
  have hlen : (lineStarts (t.take c)).length = (startsFrom 0 (t.take c)).length + 1 := rfl
  rw [List.size_toArray]
  refine lastStart_eq (fun k hk => ?_) (Nat.zero_le _) (by omega) (by omega)
  have hk' : k < (lineStarts t).length := by omega
  have hget : (lineStarts t).toArray.getD k 0 = (lineStarts t)[k] := by
    rw [Array.getD_eq_getD_getElem?, List.getElem?_toArray, List.getElem?_eq_getElem hk',
      Option.getD_some]
  rw [hget, lineStarts_le_iff hc hk', hlen, Nat.lt_succ_iff]

/-- That line starts where the last one of the text up to the offset does. -/
theorem getD_lineStarts {t : Text} {c : Nat} (hc : c ≤ t.length) :
    (lineStarts t).toArray.getD (startsFrom 0 (t.take c)).length 0 =
      (startsFrom 0 (t.take c)).getLastD 0 := by
  have hlt : (startsFrom 0 (t.take c)).length < (lineStarts (t.take c)).length := Nat.lt_succ_self _
  rw [Array.getD_eq_getD_getElem?, List.getElem?_toArray, lineStarts_split hc,
    List.getElem?_append_left hlt, lineStarts, List.getLastD_eq_getLast?]
  cases startsFrom 0 (t.take c) with
  | nil => rfl
  | cons x rest => rw [List.length_cons, List.getElem?_cons_succ, List.getLast?_eq_getElem?]; rfl

/-- Reading a text at a place `i - b` units behind the start of its line leads to the last of the
lines that are started on the way, or else goes on in that line. -/
theorem foldl_next (t : Text) {l i b : Nat} (hb : b ≤ i) :
    t.foldl Position.next ⟨l, i - b + 1, i⟩ =
      ⟨l + (startsFrom i t).length, i + t.length - (startsFrom i t).getLastD b + 1,
        i + t.length⟩ := by
  induction t generalizing l i b with
  | nil => rfl
  | cons u rest ih =>
    have hlen : i + (u :: rest).length = i + 1 + rest.length := by
      rw [List.length_cons]
      omega
    rw [List.foldl_cons, Position.next, startsFrom, hlen]
    split
    · have hnext := ih (l := l + 1) (Nat.le_refl (i + 1))
      rw [Nat.sub_self] at hnext
      rw [hnext, List.length_cons, List.getLastD_cons, Nat.add_right_comm, Nat.add_assoc l]
    · have hnext := ih (l := l) (Nat.le_succ_of_le hb)
      rw [Nat.succ_sub hb] at hnext
      exact hnext

end Text

end BrookSyntax
