import BrookSyntax.Proofs.Failing

namespace BrookSyntax

namespace Cause

mutual

theorem flatten_leaves (cause : Cause) : flatten cause.leaves = cause.leaves := by
  cases cause with
  | literal | token | endOfInput | openBlock => rfl
  | alternatives causes => exact flatten_flatten causes

theorem flatten_flatten (causes : List Cause) : flatten (flatten causes) = flatten causes := by
  cases causes with
  | nil => rfl
  | cons cause rest =>
    rw [flatten, flatten_append, flatten_leaves cause, flatten_flatten rest]

end

end Cause

namespace Failure

variable {i : Nat} {best f g a b : Failure} {fs gs : List Failure} {groups : List (List Failure)}

theorem farthest_append (best : Failure) (fs gs : List Failure) :
    farthest best (fs ++ gs) = farthest (farthest best fs) gs := by
  induction fs generalizing best with
  | nil => rfl
  | cons f fs ih => exact ih _

/-- The farthest failure of some comes from one of two: the first one, and the farthest of the
others. -/
theorem farthest_cons (best f : Failure) (fs : List Failure) :
    farthest best (f :: fs) =
      if best.offset < (farthest f fs).offset then farthest f fs else best := by
  induction fs generalizing best f with
  | nil => rfl
  | cons g fs ih =>
    have hbest : farthest best (f :: g :: fs) =
        farthest (if best.offset < f.offset then f else best) (g :: fs) := rfl
    rw [hbest, ih, ih f g]
    grind

theorem le_farthest (h : f ∈ best :: fs) : f.offset ≤ (farthest best fs).offset := by
  induction fs generalizing best with
  | nil =>
    rw [List.mem_singleton.1 h]
    exact Nat.le_refl _
  | cons g fs ih =>
    rw [farthest_cons]
    have hmem := List.mem_cons.1 h
    have hrest : f ∈ g :: fs → f.offset ≤ (farthest g fs).offset := ih
    grind

theorem merge_singleton (i : Nat) (f : Failure) : merge i [f] = f := if_pos (.inr rfl)

theorem merge_of_beyond (h : i < (farthest f fs).offset) : merge i (f :: fs) = farthest f fs :=
  if_pos (.inl h)

/-- The failures lie at one offset, and beyond `i` they are the same. -/
structure AgreeBeyond (i : Nat) (f g : Failure) : Prop where
  offset : f.offset = g.offset
  same : i < g.offset → f = g

theorem AgreeBeyond.merge (h : ∀ g ∈ f :: fs, i ≤ g.offset) :
    AgreeBeyond i (Failure.merge i (f :: fs)) (farthest f fs) := by
  have hle := h _ (Parser.farthest_mem f fs)
  rw [Failure.merge]
  split
  · exact ⟨rfl, fun _ => rfl⟩
  · next hnot =>
    rw [not_or] at hnot
    exact ⟨Nat.le_antisymm hle (Nat.le_of_not_lt hnot.1), fun hlt => absurd hlt hnot.1⟩

theorem AgreeBeyond.farther (ha : AgreeBeyond i a b) (hf : AgreeBeyond i f g) :
    AgreeBeyond i (if a.offset < f.offset then f else a)
      (if b.offset < g.offset then g else b) := by
  rw [ha.offset, hf.offset]
  split
  · exact hf
  · exact ha

theorem AgreeBeyond.farthest (hab : AgreeBeyond i a b) (hne : ∀ fs ∈ groups, fs ≠ [])
    (h : ∀ fs ∈ groups, ∀ f ∈ fs, i ≤ f.offset) :
    AgreeBeyond i (Failure.farthest a (groups.map (Failure.merge i)))
      (Failure.farthest b groups.flatten) := by
  induction groups generalizing a b with
  | nil => exact hab
  | cons fs groups ih =>
    rw [List.forall_mem_cons] at hne h
    cases fs with
    | nil => exact absurd rfl hne.1
    | cons f fs =>
      rw [List.flatten_cons, farthest_append, farthest_cons]
      exact ih (hab.farther (.merge h.1)) hne.2 h.2

theorem leaves_merge (hne : fs ≠ []) (h : ∀ f ∈ fs, f.offset = i) :
    (merge i fs).cause.leaves = Cause.flatten (fs.map cause) := by
  by_cases hlen : fs.length = 1
  · obtain ⟨f, rfl⟩ := List.length_eq_one_iff.1 hlen
    rw [merge_singleton]
    exact (List.append_nil _).symm
  · rw [merge_of_offset h hlen]
    exact Cause.flatten_flatten _

theorem flatten_merge (hne : ∀ fs ∈ groups, fs ≠ []) (h : ∀ fs ∈ groups, ∀ f ∈ fs, f.offset = i) :
    Cause.flatten ((groups.map (merge i)).map cause) =
      Cause.flatten (groups.flatten.map cause) := by
  induction groups with
  | nil => rfl
  | cons fs groups ih =>
    rw [List.forall_mem_cons] at hne h
    rw [List.map_cons, List.map_cons, List.flatten_cons, List.map_append, Cause.flatten_append,
      ← ih hne.2 h.2, ← leaves_merge hne.1 h.1]
    rfl

/-- Where nobody got beyond the start, all that is kept of the failures is their causes. -/
theorem merge_groups_at_start (hgroups : groups ≠ []) (hne : ∀ fs ∈ groups, fs ≠ [])
    (h : ∀ fs ∈ groups, ∀ f ∈ fs, f.offset = i) :
    merge i (groups.map (merge i)) = merge i groups.flatten := by
  obtain ⟨fs, rest, rfl⟩ := List.exists_cons_of_ne_nil hgroups
  cases rest with
  | nil => rw [List.map_singleton, merge_singleton, List.flatten_singleton]
  | cons gs rest =>
    have hflat : ∀ f ∈ (fs :: gs :: rest).flatten, f.offset = i := by
      intro f hf
      obtain ⟨fs, hfs, hf⟩ := List.mem_flatten.1 hf
      exact h fs hfs f hf
    have hmerged : ∀ f ∈ (fs :: gs :: rest).map (merge i), f.offset = i := by
      intro f hf
      obtain ⟨fs, hfs, rfl⟩ := List.mem_map.1 hf
      obtain hoffset | hmem := merge_offset i fs
      · exact hoffset
      · exact h fs hfs _ hmem
    have hlen : (fs :: gs :: rest).flatten.length ≠ 1 := by
      have hfs := List.length_pos_iff.2 (hne fs (by simp))
      have hgs := List.length_pos_iff.2 (hne gs (by simp))
      simp only [List.flatten_cons, List.length_append]
      omega
    rw [merge_of_offset hmerged (by simp), merge_of_offset hflat hlen, flatten_merge hne h]

/-- Failures may be merged group by group. -/
theorem merge_groups (hgroups : groups ≠ []) (hne : ∀ fs ∈ groups, fs ≠ [])
    (h : ∀ fs ∈ groups, ∀ f ∈ fs, i ≤ f.offset) :
    merge i (groups.map (merge i)) = merge i groups.flatten := by
  by_cases hstart : ∀ fs ∈ groups, ∀ f ∈ fs, f.offset = i
  · exact merge_groups_at_start hgroups hne hstart
  obtain ⟨gs, hgs, g, hg, hgi⟩ : ∃ gs ∈ groups, ∃ g ∈ gs, g.offset ≠ i := by
    simpa only [not_forall, exists_prop] using hstart
  have hbeyond : i < g.offset := Nat.lt_of_le_of_ne (h gs hgs g hg) (Ne.symm hgi)
  have hmem : g ∈ groups.flatten := List.mem_flatten_of_mem hgs hg
  obtain ⟨fs, rest, rfl⟩ := List.exists_cons_of_ne_nil hgroups
  rw [List.forall_mem_cons] at hne h
  obtain ⟨f, fs, rfl⟩ := List.exists_cons_of_ne_nil hne.1
  have hagree := (AgreeBeyond.merge h.1).farthest hne.2 h.2
  rw [← farthest_append] at hagree
  have hlt := Nat.lt_of_lt_of_le hbeyond (le_farthest hmem)
  rw [List.map_cons, merge_of_beyond (hagree.offset ▸ hlt), hagree.same hlt]
  exact (merge_of_beyond hlt).symm

end Failure

namespace Parser

variable {α : Type} {s : Source} {c : Cursor} {p : Parser α} {ps qs : List (Parser α)}
  {groups : List (List (Parser α))} {r : Result α} {fs : List Failure}

/-- No failure of the parser from a cursor lies before it. -/
def FailsAhead (s : Source) (c : Cursor) (p : Parser α) : Prop :=
  ∀ f, p s c = .failed f → c.offset ≤ f.offset

theorem WellBehaved.failsAhead (hp : p.WellBehaved) (hc : c.offset ≤ s.length) :
    p.FailsAhead s c := by
  intro f hf
  have hwithin := hp s c hc
  rw [hf] at hwithin
  exact hwithin.start_le

/-- A success or a committed failure: it ends a choice at once. -/
def Ends : Result α → Prop
  | .ok _ _ => True
  | .failed f => f.committed = true

theorem attempts_ends (h : attempts s c ps = .inl r) : Ends r := by
  induction ps with
  | nil => cases h
  | cons p ps ih =>
    rw [attempts_cons] at h
    split at h
    · cases h
      trivial
    · split at h
      · next hcom =>
        cases h
        exact hcom
      · split at h
        · next hps => exact ih (hps.trans h)
        · cases h

theorem attempts_open (h : attempts s c ps = .inr fs) : List.Forall₂ (FailsOpen s c) ps fs := by
  induction ps generalizing fs with
  | nil =>
    cases h
    exact .nil
  | cons p ps ih =>
    rw [attempts_cons] at h
    split at h
    · cases h
    · next f hf =>
      split at h
      · cases h
      · next hcom =>
        split at h
        · cases h
        · next hps =>
          cases h
          exact .cons ⟨hf, Bool.eq_false_iff.2 hcom⟩ (ih hps)

theorem attempts_cons_of_ends (hp : p s c = r) (h : Ends r) :
    attempts s c (p :: ps) = .inl r := by
  rw [attempts_cons, hp]
  cases r with
  | ok => rfl
  | failed f => exact if_pos h

theorem attempts_append_of_inl (h : attempts s c ps = .inl r) :
    attempts s c (ps ++ qs) = .inl r := by
  induction ps with
  | nil => cases h
  | cons p ps ih =>
    rw [attempts_cons] at h
    rw [List.cons_append, attempts_cons]
    split at h
    · exact h
    · split at h
      · next hcom => rw [if_pos hcom, h]
      · next hcom =>
        split at h
        · next hps => rw [if_neg hcom, ih (hps.trans h)]
        · cases h

theorem attempts_groups (s : Source) (c : Cursor) (groups : List (List (Parser α))) :
    (∃ r, attempts s c (groups.map choice) = .inl r ∧ attempts s c groups.flatten = .inl r) ∨
      ∃ fss, List.Forall₂ (List.Forall₂ (FailsOpen s c)) groups fss ∧
        attempts s c (groups.map choice) = .inr (fss.map (Failure.merge c.offset)) ∧
        attempts s c groups.flatten = .inr fss.flatten := by
  induction groups with
  | nil => exact .inr ⟨[], .nil, rfl, rfl⟩
  | cons ps groups ih =>
    rw [List.map_cons, List.flatten_cons]
    cases hps : attempts s c ps with
    | inl r =>
      have hchoice : choice ps s c = r := by rw [choice, hps]
      exact .inl ⟨r, attempts_cons_of_ends hchoice (attempts_ends hps),
        attempts_append_of_inl hps⟩
    | inr fs =>
      have hopen := attempts_open hps
      have hchoice : choice ps s c = .failed (Failure.merge c.offset fs) := by rw [choice, hps]
      have hcom : (Failure.merge c.offset fs).committed = false :=
        merge_committed (List.Forall₂.forall_mem_right hopen fun _ _ _ h => h.2)
      rw [attempts_append hopen, attempts_cons, hchoice]
      simp only [hcom, Bool.false_eq_true, ↓reduceIte]
      obtain ⟨r, hgrouped, hflat⟩ | ⟨fss, hfss, hgrouped, hflat⟩ := ih
      · exact .inl ⟨r, by rw [hgrouped], by rw [hflat]⟩
      · exact .inr ⟨fs :: fss, .cons hopen hfss, by rw [hgrouped, List.map_cons],
          by rw [hflat, List.flatten_cons]⟩

/-- A choice among choices is the choice among all their alternatives: it succeeds or fails in the
same way, with the same cause, place, frames and commitment. -/
theorem choice_flatten (hgroups : groups ≠ []) (hne : ∀ ps ∈ groups, ps ≠ [])
    (h : ∀ ps ∈ groups, ∀ p ∈ ps, p.FailsAhead s c) :
    choice (groups.map choice) s c = choice groups.flatten s c := by
  obtain ⟨r, hgrouped, hflat⟩ | ⟨fss, hfss, hgrouped, hflat⟩ := attempts_groups s c groups
  · rw [choice, choice, hgrouped, hflat]
  · have hfss_ne : fss ≠ [] := by
      rintro rfl
      cases hfss
      exact hgroups rfl
    have hfs_ne : ∀ fs ∈ fss, fs ≠ [] := by
      refine List.Forall₂.forall_mem_right (P := fun fs => fs ≠ []) hfss ?_
      rintro ps hps _ hopen rfl
      cases hopen
      exact hne [] hps rfl
    have hahead : ∀ fs ∈ fss, ∀ f ∈ fs, c.offset ≤ f.offset := by
      refine List.Forall₂.forall_mem_right (P := fun fs => ∀ f ∈ fs, c.offset ≤ f.offset) hfss ?_
      intro ps hps fs hopen
      exact List.Forall₂.forall_mem_right hopen fun p hp f hf => h ps hps p hp f hf.1
    rw [choice, choice, hgrouped, hflat]
    exact congrArg _ (Failure.merge_groups hfss_ne hfs_ne hahead)

theorem choice_flatten_farthest :
    (∀ ps ∈ [[literal "if", literal "le" *> literal "a"], [literal "l" *> literal "b"]], ps ≠ []) ∧
      (∀ ps ∈ [[literal "if", literal "le" *> literal "a"], [literal "l" *> literal "b"]],
        ∀ p ∈ ps, p.FailsAhead (.ofText "let") ⟨0, 0⟩) ∧
      choice [choice [literal "if", literal "le" *> literal "a"],
          choice [literal "l" *> literal "b"]] (.ofText "let") ⟨0, 0⟩ =
        choice [literal "if", literal "le" *> literal "a", literal "l" *> literal "b"]
          (.ofText "let") ⟨0, 0⟩ := by
  have hne : ∀ ps ∈ [[literal "if", literal "le" *> literal "a"], [literal "l" *> literal "b"]],
      ps ≠ [] := by simp
  have hahead : ∀ ps ∈ [[literal "if", literal "le" *> literal "a"], [literal "l" *> literal "b"]],
      ∀ p ∈ ps, p.FailsAhead (.ofText "let") ⟨0, 0⟩ := by
    have hwell : ∀ ps ∈ [[literal "if", literal "le" *> literal "a"],
        [literal "l" *> literal "b"]], ∀ p ∈ ps, p.WellBehaved := by
      simp only [List.forall_mem_cons, List.not_mem_nil, false_implies, implies_true, and_true]
      exact ⟨⟨.literal _, (WellBehaved.literal _).seqRight (.literal _)⟩,
        (WellBehaved.literal _).seqRight (.literal _)⟩
    exact fun ps hps p hp => (hwell ps hps p hp).failsAhead (Nat.zero_le _)
  exact ⟨hne, hahead, choice_flatten (List.cons_ne_nil _ _) hne hahead⟩

end Parser

end BrookSyntax
