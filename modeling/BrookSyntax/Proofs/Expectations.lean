import BrookSyntax.Proofs.Grouping
import Mathlib.Logic.Relation

namespace BrookSyntax

namespace Text

variable {l a b a' b' : List Text}

theorem eraseDups_filter (p : Text → Bool) (l : List Text) :
    (l.filter p).eraseDups = l.eraseDups.filter p := by
  -- What follows the first element loses it everywhere, so the induction is on the length.
  generalize hn : l.length = n
  induction n using Nat.strongRecOn generalizing l with
  | ind n ih =>
    cases l with
    | nil => rfl
    | cons t l =>
      subst hn
      have hrest := ih _ (Nat.lt_succ_of_le (List.length_filter_le (fun u => !u == t) l)) _ rfl
      rw [List.eraseDups_cons]
      cases hp : p t with
      | true =>
        rw [List.filter_cons_of_pos hp, List.filter_cons_of_pos hp, List.eraseDups_cons, ← hrest,
          List.filter_comm]
      | false =>
        have hkept : (l.filter fun u => !u == t).filter p = l.filter p := by
          rw [List.filter_filter]
          refine List.filter_congr fun u _ => ?_
          by_cases hu : u = t <;> simp [hu, hp]
        rw [List.filter_cons_of_neg (by simp [hp]), List.filter_cons_of_neg (by simp [hp]), ← hrest,
          hkept]

theorem eraseDups_of_nodup (h : l.Nodup) : l.eraseDups = l := by
  induction l with
  | nil => rfl
  | cons t l ih =>
    obtain ⟨ht, hl⟩ := List.nodup_cons.1 h
    have hkept : (l.filter fun u => !u == t) = l := by
      rw [List.filter_eq_self]
      rintro u hu
      rw [Bool.not_eq_true', beq_eq_false_iff_ne]
      rintro rfl
      exact ht hu
    rw [List.eraseDups_cons, hkept, ih hl]

theorem eraseDups_append_congr (ha : a.eraseDups = a'.eraseDups) (hb : b.eraseDups = b'.eraseDups) :
    (a ++ b).eraseDups = (a' ++ b').eraseDups := by
  have hmem (u : Text) : a.elem u = a'.elem u := by
    rw [Bool.eq_iff_iff, List.elem_iff, List.elem_iff, ← List.mem_eraseDups, ha, List.mem_eraseDups]
  rw [List.eraseDups_append, List.eraseDups_append, List.removeAll, List.removeAll,
    eraseDups_filter, eraseDups_filter, ha, hb]
  simp only [hmem]

/-- The texts of a list, in the order in which each of them occurs first. -/
structure FirstOccurrences (l d : List Text) : Prop where
  mem_iff : ∀ t, t ∈ d ↔ t ∈ l
  ordered : d.Pairwise fun a b => l.idxOf a < l.idxOf b

theorem FirstOccurrences.nodup {d : List Text} (h : FirstOccurrences l d) : d.Nodup := by
  refine h.ordered.imp fun {t u} hlt heq => ?_
  rw [heq] at hlt
  exact Nat.lt_irrefl _ hlt

theorem firstOccurrences_eraseDups (l : List Text) : FirstOccurrences l l.eraseDups where
  mem_iff _ := List.mem_eraseDups
  ordered := by
    induction l with
    | nil => exact .nil
    | cons t l ih =>
      rw [List.eraseDups_cons, eraseDups_filter]
      have hother {u : Text} (hu : u ∈ l.eraseDups.filter fun u => !u == t) :
          (t :: l).idxOf u = l.idxOf u + 1 := by
        have hne : u ≠ t := bne_iff_ne.1 (List.mem_filter.1 hu).2
        exact List.idxOf_cons_ne l hne.symm
      refine List.pairwise_cons.2 ⟨fun u hu => ?_, ?_⟩
      · rw [hother hu, List.idxOf_cons_self]
        exact Nat.succ_pos _
      · refine (ih.filter _).imp_of_mem fun hu hv hlt => ?_
        rw [hother hu, hother hv]
        exact Nat.succ_lt_succ hlt

theorem eraseDups_eraseDups (l : List Text) : l.eraseDups.eraseDups = l.eraseDups :=
  eraseDups_of_nodup (firstOccurrences_eraseDups l).nodup

end Text

namespace Cause

/-- One group of alternatives is opened where it stands. -/
inductive Opens : List Cause → List Cause → Prop where
  | group (before inside after : List Cause) :
      Opens (before ++ alternatives inside :: after) (before ++ inside ++ after)

/-- Some groups are opened, one after the other. -/
def Opened : List Cause → List Cause → Prop := Relation.ReflTransGen Opens

/-- Nothing in the list is a group of alternatives. -/
def AllLeaves (causes : List Cause) : Prop := ∀ inside, alternatives inside ∉ causes

variable {causes others : List Cause}

theorem Opens.flatten_eq (h : Opens causes others) : flatten causes = flatten others := by
  cases h with
  | group before inside after =>
    rw [flatten_append, flatten, leaves, flatten_append, flatten_append, List.append_assoc]

theorem Opened.flatten_eq (h : Opened causes others) : flatten causes = flatten others := by
  induction h with
  | refl => rfl
  | tail _ hstep ih => exact ih.trans hstep.flatten_eq

theorem Opened.within (h : Opened causes others) (before after : List Cause) :
    Opened (before ++ causes ++ after) (before ++ others ++ after) := by
  induction h with
  | refl => exact .refl
  | tail _ hstep ih =>
    refine ih.tail ?_
    cases hstep with
    | group left inside right =>
      have hopens := Opens.group (before ++ left) inside (right ++ after)
      simpa only [List.append_assoc, List.cons_append] using hopens

mutual

theorem opened_leaves (cause : Cause) : Opened [cause] cause.leaves := by
  cases cause with
  | literal | token | endOfInput | openBlock => exact .refl
  | alternatives inside =>
    have hopens := Opens.group [] inside []
    rw [List.append_nil] at hopens
    exact .head hopens (opened_flatten inside)

theorem opened_flatten (causes : List Cause) : Opened causes (flatten causes) := by
  cases causes with
  | nil => exact .refl
  | cons cause rest =>
    have hfirst := (opened_leaves cause).within [] rest
    have hrest := (opened_flatten rest).within cause.leaves []
    rw [List.append_nil, List.append_nil] at hrest
    exact hfirst.trans hrest

end

mutual

theorem allLeaves_leaves (cause : Cause) : AllLeaves cause.leaves := by
  cases cause with
  | literal | token | endOfInput | openBlock =>
    intro inside hmem
    cases List.mem_singleton.1 hmem
  | alternatives inside => exact allLeaves_flatten inside

theorem allLeaves_flatten (causes : List Cause) : AllLeaves (flatten causes) := by
  cases causes with
  | nil => exact nofun
  | cons cause rest =>
    intro inside hmem
    rcases List.mem_append.1 hmem with hfirst | hrest
    · exact allLeaves_leaves cause inside hfirst
    · exact allLeaves_flatten rest inside hrest

end

theorem AllLeaves.flatten_eq (h : AllLeaves causes) : flatten causes = causes := by
  induction causes with
  | nil => rfl
  | cons cause rest ih =>
    have hrest := ih fun inside hmem => h inside (List.mem_cons_of_mem _ hmem)
    cases cause with
    | literal | token | endOfInput | openBlock => rw [flatten, hrest]; rfl
    | alternatives inside => exact absurd List.mem_cons_self (h inside)

/-- In whatever order groups are opened until none is left, the flattened list is what comes out. -/
theorem opened_allLeaves_iff :
    Opened causes others ∧ AllLeaves others ↔ others = flatten causes := by
  constructor
  · rintro ⟨hopened, hleaves⟩
    rw [hopened.flatten_eq, hleaves.flatten_eq]
  · rintro rfl
    exact ⟨opened_flatten causes, allLeaves_flatten causes⟩

theorem allExpectations_eq_flatMap (causes : List Cause) :
    allExpectations causes = causes.flatMap expectations := by
  induction causes with
  | nil => rfl
  | cons cause rest ih => rw [allExpectations, ih, List.flatMap_cons]

mutual

theorem eraseDups_leaves (cause : Cause) :
    (cause.leaves.flatMap expectations).eraseDups = cause.expectations.eraseDups := by
  cases cause with
  | literal | token | endOfInput | openBlock => rfl
  | alternatives inside =>
    rw [leaves, eraseDups_flatten inside, expectations, Text.eraseDups_eraseDups,
      allExpectations_eq_flatMap]

/-- Whether doubles are left out group by group or at the end makes no difference. -/
theorem eraseDups_flatten (causes : List Cause) :
    ((flatten causes).flatMap expectations).eraseDups =
      (causes.flatMap expectations).eraseDups := by
  cases causes with
  | nil => rfl
  | cons cause rest =>
    rw [flatten, List.flatMap_append, List.flatMap_cons]
    exact Text.eraseDups_append_congr (eraseDups_leaves cause) (eraseDups_flatten rest)

end

theorem expectations_alternatives (causes : List Cause) :
    (alternatives causes).expectations = (causes.flatMap expectations).eraseDups := by
  rw [expectations, allExpectations_eq_flatMap]

theorem expectations_flatten (causes : List Cause) :
    (alternatives (flatten causes)).expectations = (alternatives causes).expectations := by
  rw [expectations_alternatives, expectations_alternatives, eraseDups_flatten]

/-- Flattening gives the leaves in their order, once and for all, and part by part. Whatever is
expected is named once, in the order in which the causes name it first, and so are the leaves alone:
the message is the same for the flattened causes. -/
theorem flatten_keeps_message (causes : List Cause) :
    AllLeaves (flatten causes) ∧
    (∀ ls, Opened causes ls ∧ AllLeaves ls ↔ ls = flatten causes) ∧
    flatten (flatten causes) = flatten causes ∧
    (∀ others, flatten (causes ++ others) = flatten causes ++ flatten others) ∧
    (alternatives causes).expectations.Nodup ∧
    Text.FirstOccurrences (causes.flatMap expectations) (alternatives causes).expectations ∧
    Text.FirstOccurrences ((flatten causes).flatMap expectations)
      (alternatives causes).expectations ∧
    (alternatives (flatten causes)).expectations = (alternatives causes).expectations ∧
    (alternatives (flatten causes)).describe = (alternatives causes).describe := by
  have hsame := expectations_flatten causes
  refine ⟨allLeaves_flatten causes, fun ls => opened_allLeaves_iff, flatten_flatten causes,
    flatten_append causes, ?_, ?_, ?_, hsame, ?_⟩
  · rw [expectations_alternatives]
    exact (Text.firstOccurrences_eraseDups _).nodup
  · rw [expectations_alternatives]
    exact Text.firstOccurrences_eraseDups _
  · rw [← hsame, expectations_alternatives]
    exact Text.firstOccurrences_eraseDups _
  · rw [describe, describe, hsame]

end Cause

end BrookSyntax
