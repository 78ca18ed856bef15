import BrookSyntax.Proofs.Places

namespace BrookSyntax

namespace Text

variable {t before line after : Text} {c : Nat}

/-- The line that the offset `c` is in, between what stands before it and what follows it. The
newline that ends a line still belongs to its offsets. -/
structure LineAt (t : Text) (c : Nat) (before line after : Text) : Prop where
  split : t = before ++ (line ++ after)
  opens : before = [] ∨ before.getLast? = some CodeUnit.newline
  inside : CodeUnit.newline ∉ line
  closes : after = [] ∨ after.head? = some CodeUnit.newline
  start_le : before.length ≤ c
  le_stop : c ≤ before.length + line.length

/-- What is left of the carriage return that a line may end in. -/
def WithoutReturn (raw line : Text) : Prop :=
  raw = line ++ [CodeUnit.of '\r'] ∨ (raw = line ∧ raw.getLast? ≠ some (CodeUnit.of '\r'))

theorem exists_lineStart (t : Text) :
    ∃ before left, t = before ++ left ∧
      (before = [] ∨ before.getLast? = some CodeUnit.newline) ∧ CodeUnit.newline ∉ left := by
  induction t with
  | nil => exact ⟨[], [], rfl, .inl rfl, List.not_mem_nil⟩
  | cons u rest ih =>
    obtain ⟨before, left, rfl, hopens, hleft⟩ := ih
    rcases hopens with rfl | hopens
    · by_cases hu : u = CodeUnit.newline
      · exact ⟨[u], left, rfl, .inr (by rw [hu]; rfl), hleft⟩
      · exact ⟨[], u :: left, rfl, .inl rfl, List.not_mem_cons_of_ne_of_not_mem (Ne.symm hu) hleft⟩
    · refine ⟨u :: before, left, rfl, .inr ?_, hleft⟩
      rw [List.getLast?_cons, hopens]
      rfl

theorem exists_lineEnd (t : Text) :
    ∃ right after, t = right ++ after ∧ CodeUnit.newline ∉ right ∧
      (after = [] ∨ after.head? = some CodeUnit.newline) := by
  by_cases h : CodeUnit.newline ∈ t
  · obtain ⟨right, after, rfl, hright⟩ := List.eq_append_cons_of_mem h
    exact ⟨right, _, rfl, hright, .inr rfl⟩
  · exact ⟨t, [], (List.append_nil t).symm, h, .inl rfl⟩

theorem exists_lineAt (h : c ≤ t.length) : ∃ before line after, t.LineAt c before line after := by
  obtain ⟨before, left, hbefore, hopens, hleft⟩ := exists_lineStart (t.take c)
  obtain ⟨right, after, hafter, hright, hcloses⟩ := exists_lineEnd (t.drop c)
  have hlen : before.length + left.length = c := by
    rw [← List.length_append, ← hbefore, List.length_take_of_le h]
  refine ⟨before, left ++ right, after, ?_, hopens, ?_, hcloses, by omega, ?_⟩
  · rw [← List.take_append_drop c t, hbefore, hafter, List.append_assoc, List.append_assoc]
  · exact fun hmem => (List.mem_append.1 hmem).elim hleft hright
  · rw [List.length_append]
    omega

theorem LineAt.take_eq (h : t.LineAt c before line after) :
    t.take c = before ++ line.take (c - before.length) := by
  have hle := h.le_stop
  have hrest : c - before.length - line.length = 0 := by omega
  rw [h.split, List.take_append, List.take_of_length_le h.start_le, List.take_append, hrest,
    List.take_zero, List.append_nil]

theorem LineAt.left_inside (h : t.LineAt c before line after) :
    CodeUnit.newline ∉ line.take (c - before.length) :=
  fun hmem => h.inside (List.mem_of_mem_take hmem)

theorem LineAt.count_take (h : t.LineAt c before line after) :
    (t.take c).count CodeUnit.newline = before.count CodeUnit.newline := by
  rw [h.take_eq, List.count_append, List.count_eq_zero.2 h.left_inside]
  rfl

theorem LineAt.le_length (h : t.LineAt c before line after) : c ≤ t.length := by
  have hle := h.le_stop
  rw [h.split, List.length_append, List.length_append]
  omega

theorem LineAt.start_unique {before' line' after' : Text} (h : t.LineAt c before line after)
    (h' : t.LineAt c before' line' after') : before.length = before'.length := by
  -- A second start inside the first one's line would stand behind a newline there.
  have hle {a l r a' l' r' : Text} (h : t.LineAt c a l r) (h' : t.LineAt c a' l' r') :
      a'.length ≤ a.length := by
    rcases h'.opens with rfl | hopens
    · exact Nat.zero_le _
    · refine Nat.le_of_not_lt fun hlt => ?_
      have hlast := h'.start_le
      have hstop := h.le_stop
      have hget : t[a'.length - 1]? = some CodeUnit.newline := by
        rw [h'.split, List.getElem?_append_left (by omega), ← List.getLast?_eq_getElem?, hopens]
      rw [h.split, List.getElem?_append_right (by omega),
        List.getElem?_append_left (by omega)] at hget
      exact h.inside (List.mem_of_getElem? hget)
  exact Nat.le_antisymm (hle h' h) (hle h h')

theorem LineAt.takeWhile_eq (h : t.LineAt c before line after) :
    (line ++ after).takeWhile (· != CodeUnit.newline) = line := by
  have hstop : after.takeWhile (· != CodeUnit.newline) = [] := by
    rcases h.closes with rfl | hcloses
    · rfl
    · obtain ⟨rest, rfl⟩ := List.head?_eq_some_iff.1 hcloses
      exact List.takeWhile_cons_of_neg (by decide)
  have hinside : ∀ u ∈ line, (u != CodeUnit.newline) = true :=
    fun u hu => bne_iff_ne.2 fun he => h.inside (he ▸ hu)
  rw [List.takeWhile_append_of_pos hinside, hstop, List.append_nil]

theorem LineAt.unique {before' line' after' : Text} (h : t.LineAt c before line after)
    (h' : t.LineAt c before' line' after') : before = before' ∧ line = line' := by
  obtain ⟨hbefore, hrest⟩ := List.append_inj (h.split.symm.trans h'.split) (h.start_unique h')
  exact ⟨hbefore, by rw [← h.takeWhile_eq, hrest, h'.takeWhile_eq]⟩

theorem length_startsFrom (i : Nat) (t : Text) :
    (startsFrom i t).length = t.count CodeUnit.newline := by
  induction t generalizing i with
  | nil => rfl
  | cons u rest ih =>
    rw [startsFrom]
    split
    · next hu => rw [List.length_cons, ih, hu, List.count_cons_self]
    · next hu => rw [ih, List.count_cons_of_ne hu]

theorem startsFrom_of_notMem {i : Nat} (h : CodeUnit.newline ∉ t) : startsFrom i t = [] := by
  rw [← List.length_eq_zero_iff, length_startsFrom, List.count_eq_zero.2 h]

theorem getLast?_lineStarts (h : t = [] ∨ t.getLast? = some CodeUnit.newline) :
    (lineStarts t).getLast? = some t.length := by
  rcases h with rfl | h
  · rfl
  · obtain ⟨init, rfl⟩ := List.getLast?_eq_some_iff.1 h
    rw [lineStarts_append, List.length_append, List.getLast?_append, startsFrom, if_pos rfl]
    rfl

/-- The starts of the lines around a line: its own is found by the newlines before it, and the next
one, if there is one, behind its newline. -/
theorem LineAt.lineStarts_eq (h : t.LineAt c before line after) :
    (lineStarts t)[before.count CodeUnit.newline]? = some before.length ∧
      ((lineStarts t)[before.count CodeUnit.newline + 1]?).elim t.length (· - 1) =
        before.length + line.length := by
  have hsplit : lineStarts t =
      lineStarts before ++ startsFrom (before.length + line.length) after := by
    rw [h.split, lineStarts_append, startsFrom_append, startsFrom_of_notMem h.inside,
      List.nil_append]
  have hlen : (lineStarts before).length = before.count CodeUnit.newline + 1 := by
    rw [lineStarts, List.length_cons, length_startsFrom]
  have hlast := getLast?_lineStarts h.opens
  rw [List.getLast?_eq_getElem?, hlen, Nat.add_sub_cancel] at hlast
  rw [hsplit, List.getElem?_append_left (by omega), ← hlen,
    List.getElem?_append_right (Nat.le_refl _), Nat.sub_self]
  refine ⟨hlast, ?_⟩
  rcases h.closes with rfl | hcloses
  · rw [h.split, List.append_nil, List.length_append]
    rfl
  · obtain ⟨rest, rfl⟩ := List.head?_eq_some_iff.1 hcloses
    rw [startsFrom, if_pos rfl]
    rfl

theorem lineAt_of_splitOn {k : Nat} (h : (t.splitOn CodeUnit.newline)[k]? = some line) :
    ∃ before after, t.LineAt before.length before line after ∧
      before.count CodeUnit.newline = k := by
  induction k generalizing t with
  | zero =>
    obtain ⟨right, after, rfl, hright, hcloses⟩ := exists_lineEnd t
    obtain rfl : right = line := by
      rcases hcloses with rfl | hcloses
      · rw [List.append_nil, List.splitOn_eq_singleton hright] at h
        exact Option.some.inj h
      · obtain ⟨rest, rfl⟩ := List.head?_eq_some_iff.1 hcloses
        rw [List.splitOn_append_cons_self, List.splitOn_eq_singleton hright] at h
        exact Option.some.inj h
    exact ⟨[], after, ⟨rfl, .inl rfl, hright, hcloses, Nat.le_refl _, Nat.le_add_right _ _⟩, rfl⟩
  | succ k ih =>
    have hmem : CodeUnit.newline ∈ t := by
      refine Decidable.byContradiction fun hnot => ?_
      rw [List.splitOn_eq_singleton hnot] at h
      cases h
    obtain ⟨first, rest, rfl, hfirst⟩ := List.eq_append_cons_of_mem hmem
    rw [List.splitOn_append_cons_self, List.splitOn_eq_singleton hfirst] at h
    obtain ⟨before, after, hline, hcount⟩ := ih h
    refine ⟨first ++ CodeUnit.newline :: before, after, ⟨?_, .inr ?_, hline.inside, hline.closes,
      Nat.le_refl _, Nat.le_add_right _ _⟩, ?_⟩
    · rw [List.append_assoc, List.cons_append, ← hline.split]
    · rw [List.getLast?_append, List.getLast?_cons]
      rcases hline.opens with rfl | hopens
      · rfl
      · rw [hopens]
        rfl
    · rw [List.count_append, List.count_eq_zero.2 hfirst, List.count_cons_self, hcount,
        Nat.zero_add]

theorem length_splitOn (t : Text) :
    (t.splitOn CodeUnit.newline).length = t.count CodeUnit.newline + 1 := by
  induction t with
  | nil => rfl
  | cons u rest ih =>
    rw [List.splitOn_cons_eq_if_modifyHead, List.count_cons]
    split
    · rw [List.length_cons, ih]
    · rw [List.length_modifyHead, ih, Nat.add_zero]

end Text

namespace Position

/-- The order in which places are read: by lines, and by columns within a line. -/
def Before (p q : Position) : Prop := p.line < q.line ∨ (p.line = q.line ∧ p.col < q.col)

theorem foldl_next_of_notMem {t : Text} (p : Position) (h : CodeUnit.newline ∉ t) :
    t.foldl next p = ⟨p.line, p.col + t.length, p.offset + t.length⟩ := by
  induction t generalizing p with
  | nil => rfl
  | cons u rest ih =>
    obtain ⟨hu, hrest⟩ := List.ne_and_not_mem_of_not_mem_cons h
    rw [List.foldl_cons, ih _ hrest, next, if_neg (Ne.symm hu), List.length_cons]
    dsimp only
    rw [Nat.add_assoc, Nat.add_assoc, Nat.add_comm 1]

theorem foldl_next_col {t : Text} (h : t = [] ∨ t.getLast? = some CodeUnit.newline) :
    (t.foldl next start).col = 1 := by
  rcases h with rfl | h
  · rfl
  · obtain ⟨init, rfl⟩ := List.getLast?_eq_some_iff.1 h
    rw [List.foldl_append, List.foldl_cons, next, if_pos rfl]
    rfl

theorem before_foldl_next {t : Text} (p : Position) (h : t ≠ []) : p.Before (t.foldl next p) := by
  by_cases hmem : CodeUnit.newline ∈ t
  · left
    rw [foldl_next_line]
    exact Nat.lt_add_of_pos_right (List.count_pos_iff.2 hmem)
  · right
    rw [foldl_next_of_notMem p hmem]
    exact ⟨rfl, Nat.lt_add_of_pos_right (List.length_pos_iff.2 h)⟩

end Position

namespace Source

variable {s : Source} {c : Nat} {before line after : Text}

theorem position_of_lineAt (h : s.text.LineAt c before line after) :
    s.position c =
      ⟨(s.text.take c).count CodeUnit.newline + 1, c - before.length + 1, c⟩ := by
  have hstart : before.foldl Position.next .start =
      ⟨before.count CodeUnit.newline + 1, 1, before.length⟩ := by
    have hline := Position.foldl_next_line .start before
    have hoffset := Position.foldl_next_offset .start before
    rw [show Position.start.line = 1 from rfl, Nat.add_comm] at hline
    rw [show Position.start.offset = 0 from rfl, Nat.zero_add] at hoffset
    rw [← hline, ← Position.foldl_next_col h.opens, ← hoffset]
  have hlen : (line.take (c - before.length)).length = c - before.length := by
    have hle := h.le_stop
    exact List.length_take_of_le (by omega)
  rw [position_eq, h.count_take, h.take_eq, List.foldl_append, hstart,
    Position.foldl_next_of_notMem _ h.left_inside, hlen]
  dsimp only
  rw [Nat.add_comm 1, Nat.add_sub_cancel' h.start_le]

theorem position_before {i j : Nat} (hij : i < j) (hj : j ≤ s.length) :
    (s.position i).Before (s.position j) := by
  have hsplit := List.take_append_drop i (s.text.take j)
  rw [List.take_take, Nat.min_eq_left (Nat.le_of_lt hij)] at hsplit
  have hne : (s.text.take j).drop i ≠ [] := by
    rw [length_eq] at hj
    rw [← List.length_pos_iff, List.length_drop, List.length_take_of_le hj]
    omega
  rw [position_eq s j, ← hsplit, List.foldl_append, ← position_eq]
  exact Position.before_foldl_next _ hne

theorem numLines_eq (s : Source) : s.numLines = s.text.count CodeUnit.newline + 1 := by
  rw [numLines, starts_eq, List.size_toArray, Text.lineStarts, List.length_cons,
    Text.length_startsFrom]

theorem withoutReturn_dropReturn (t : Text) : t.WithoutReturn (dropReturn t) := by
  rw [dropReturn]
  split
  · next h =>
    obtain ⟨init, rfl⟩ := List.getLast?_eq_some_iff.1 h
    exact .inl (by rw [List.dropLast_concat])
  · next h => exact .inr ⟨rfl, h⟩

theorem line_of_lineAt (h : s.text.LineAt c before line after) :
    s.line ((before.count CodeUnit.newline + 1 : Nat) : Int) = dropReturn line := by
  obtain ⟨hstart, hstop⟩ := h.lineStarts_eq
  rw [Source.line, if_neg (by omega), Int.toNat_natCast, Nat.add_sub_cancel, s.starts_eq,
    List.getElem?_toArray, hstart]
  dsimp only
  rw [lineEnd, s.starts_eq, List.getElem?_toArray, length_eq, hstop, slice_eq, h.split,
    ← List.append_assoc, ← List.length_append, List.take_left, List.drop_left]

theorem line_of_splitOn {k : Nat} (h : (s.text.splitOn CodeUnit.newline)[k]? = some line) :
    s.line ((k + 1 : Nat) : Int) = dropReturn line := by
  obtain ⟨before, after, hline, rfl⟩ := Text.lineAt_of_splitOn h
  exact line_of_lineAt hline

theorem line_beyond {k : Int} (h : k < 1 ∨ (s.numLines : Int) < k) : s.line k = [] := by
  rw [Source.line]
  split
  · rfl
  · have hbeyond : s.starts.size ≤ k.toNat - 1 := by
      have : s.numLines = s.starts.size := rfl
      omega
    rw [Array.getElem?_eq_none hbeyond]

theorem place_of_toInt? {x : Binary64} {i : Int} (h : x.toInt? = some i) :
    s.place x = (s.positionNear i).map .ofNat ∧ s.lineAt x = s.line i := by
  refine ⟨?_, by rw [lineAt, h]; rfl⟩
  rw [Binary64.toInt?] at h
  split at h
  · next hwhole =>
    cases h
    rw [place, if_pos (.inl hwhole)]
  · cases h

/-- The positions of the offsets and the lines of a text, as a plain reading of it counts them. -/
theorem positions_and_lines (s : Source) :
    (∀ i : Int, ∃ c : Nat, (c : Int) = max 0 (min i s.length) ∧
      ∃ before line after, s.text.LineAt c before line after ∧
        s.positionNear i =
          ⟨(s.text.take c).count CodeUnit.newline + 1, c - before.length + 1, c⟩) ∧
    (∀ i j : Int, 0 ≤ i → i < j → j ≤ s.length →
      (s.positionNear i).Before (s.positionNear j)) ∧
    s.numLines = s.text.count CodeUnit.newline + 1 ∧
    [CodeUnit.newline].intercalate (s.text.splitOn CodeUnit.newline) = s.text ∧
    (s.text.splitOn CodeUnit.newline).length = s.numLines ∧
    (∀ (k : Nat) (raw : Text), (s.text.splitOn CodeUnit.newline)[k]? = some raw →
      CodeUnit.newline ∉ raw ∧ raw.WithoutReturn (s.line ((k + 1 : Nat) : Int))) ∧
    (∀ k : Int, k < 1 ∨ (s.numLines : Int) < k → s.line k = []) ∧
    ∀ (x : Binary64) (i : Int), x.toInt? = some i →
      s.place x = (s.positionNear i).map .ofNat ∧ s.lineAt x = s.line i := by
  refine ⟨fun i => ?_, fun i j hi hij hj => ?_, s.numLines_eq, List.intercalate_splitOn _,
    ?_, fun k raw hraw => ⟨?_, ?_⟩, fun k hk => line_beyond hk, fun x i hx => place_of_toInt? hx⟩
  · obtain ⟨before, line, after, hline⟩ :=
      Text.exists_lineAt (t := s.text) (Nat.min_le_right i.toNat s.text.length)
    refine ⟨min i.toNat s.text.length, ?_, before, line, after, hline, ?_⟩
    · rw [length_eq]
      omega
    · rw [← position_of_lineAt hline, positionNear, ← length_eq, position_min]
  · exact position_before (by omega) (by omega)
  · rw [Text.length_splitOn, numLines_eq]
  · obtain ⟨before, after, hline, -⟩ := Text.lineAt_of_splitOn hraw
    exact hline.inside
  · rw [line_of_splitOn hraw]
    exact withoutReturn_dropReturn raw

end Source

end BrookSyntax
