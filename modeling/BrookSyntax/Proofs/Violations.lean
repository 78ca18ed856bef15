import BrookSyntax.Proofs.Fits

namespace BrookSyntax

namespace Violation

variable {u v w : Violation} {vs before after : List (Option Violation)} {k : Nat}

theorem deeper_eq_some {a b : Option Violation} (h : deeper a b = some u) :
    a = some u ∨ b = some u := by
  cases a with
  | none => exact .inr h
  | some a =>
    cases b with
    | none => exact .inl h
    | some b =>
      rw [deeper] at h
      split at h
      · exact .inr h
      · exact .inl h

theorem mem_of_deepest (h : deepest vs = some u) : some u ∈ vs := by
  induction vs with
  | nil => cases h
  | cons a rest ih =>
    obtain rfl | h := deeper_eq_some h
    · exact List.mem_cons_self
    · exact List.mem_cons_of_mem _ (ih h)

/-- All violations that are there lead no further than so many steps. -/
def Within (k : Nat) (vs : List (Option Violation)) : Prop :=
  ∀ a ∈ vs, ∀ u, a = some u → u.path.length ≤ k

theorem Within.deepest (h : Within k vs) (hu : deepest vs = some u) : u.path.length ≤ k :=
  h _ (mem_of_deepest hu) u rfl

/-- The first of the deepest violations is told. -/
theorem deepest_cons (h : Within u.path.length vs) : deepest (some u :: vs) = some u := by
  cases hrest : deepest vs with
  | none => exact congrArg (deeper (some u)) hrest
  | some v =>
    have hle := h.deepest hrest
    have hcons : deepest (some u :: vs) = deeper (some u) (some v) := congrArg (deeper _) hrest
    rw [hcons, deeper, if_neg (Nat.not_lt_of_le hle)]

theorem deepest_cons_of_lt {a : Option Violation} (h : deepest vs = some u)
    (ha : ∀ v, a = some v → v.path.length < u.path.length) : deepest (a :: vs) = some u := by
  have hcons : deepest (a :: vs) = deeper a (some u) := congrArg (deeper a) h
  rw [hcons]
  cases a with
  | none => rfl
  | some v => rw [deeper, if_pos (ha v rfl)]

theorem deepest_append (hbefore : ∀ a ∈ before, ∀ v, a = some v → v.path.length < u.path.length)
    (h : deepest after = some u) : deepest (before ++ after) = some u := by
  induction before with
  | nil => exact h
  | cons a rest ih =>
    rw [List.forall_mem_cons] at hbefore
    exact deepest_cons_of_lt (ih hbefore.2) hbefore.1

theorem deepest_eq_of_mem (h : some u ∈ vs)
    (hmax : ∀ a ∈ vs, ∀ v, a = some v → v.path.length < u.path.length ∨ v = u) :
    deepest vs = some u := by
  induction vs with
  | nil => cases h
  | cons a rest ih =>
    rw [List.forall_mem_cons] at hmax
    have hwithin : Within u.path.length rest := by
      intro b hb v hv
      obtain hlt | rfl := hmax.2 b hb v hv
      · exact Nat.le_of_lt hlt
      · exact Nat.le_refl _
    by_cases ha : a = some u
    · rw [ha]
      exact deepest_cons hwithin
    · refine deepest_cons_of_lt (ih ((List.mem_cons.1 h).resolve_left (Ne.symm ha)) hmax.2) ?_
      intro v hv
      obtain hlt | rfl := hmax.1 v hv
      · exact hlt
      · exact absurd hv ha

end Violation

/-- Only values that hold no others have the shape. -/
def Shape.isFlat : Shape → Bool
  | constant _ | anyText _ | text _ | number | integer _ | bool => true
  | record _ | oneRecord _ | orNull _ | list _ => false

namespace Json

variable {v w : Json} {shape : Shape} {r : Record} {key : Text} {members : List (Text × Json)}
  {u : Violation}

/-- The value holds no others. -/
def IsScalar : Json → Prop
  | null | bool _ | number _ | text _ => True
  | array _ | object _ => False

theorem isScalar_of_fits (hflat : shape.isFlat) (h : v.Fits shape) : v.IsScalar := by
  cases shape with
  | constant t =>
    obtain rfl := fits_constant.1 h
    trivial
  | anyText texts =>
    obtain ⟨t, -, rfl⟩ := fits_anyText.1 h
    trivial
  | text n =>
    obtain ⟨t, rfl, -⟩ := fits_text.1 h
    trivial
  | number =>
    obtain ⟨x, rfl, -⟩ := fits_number.1 h
    trivial
  | integer least =>
    obtain ⟨x, i, rfl, -⟩ := fits_integer.1 h
    trivial
  | bool =>
    obtain ⟨b, rfl⟩ := fits_bool.1 h
    trivial
  | record | oneRecord | orNull | list => cases hflat

theorem path_eq_nil_of_fault {fault : Fault} (h : Layer.fault fault = some u) : u.path = [] := by
  cases h
  rfl

theorem path_eq_nil_of_ite {p : Prop} [Decidable p] {a b : Option Violation}
    (h : (if p then a else b) = some u) (ha : a = some u → u.path = [])
    (hb : b = some u → u.path = []) : u.path = [] := by
  split at h
  · exact ha h
  · exact hb h

theorem path_eq_nil_of_flat (hflat : shape.isFlat)
    (h : v.violation? Record.fields shape = some u) : u.path = [] := by
  cases shape with
  | constant t =>
    cases v with
    | text s => exact path_eq_nil_of_ite h nofun path_eq_nil_of_fault
    | _ => exact path_eq_nil_of_fault h
  | anyText texts =>
    cases v with
    | text s => exact path_eq_nil_of_ite h nofun path_eq_nil_of_fault
    | _ => exact path_eq_nil_of_fault h
  | text n =>
    cases v with
    | text s => exact path_eq_nil_of_ite h path_eq_nil_of_fault nofun
    | _ => exact path_eq_nil_of_fault h
  | number =>
    cases v with
    | number x => exact path_eq_nil_of_ite h nofun path_eq_nil_of_fault
    | _ => exact path_eq_nil_of_fault h
  | integer least =>
    cases v with
    | number x =>
      exact path_eq_nil_of_ite h path_eq_nil_of_fault fun h =>
        path_eq_nil_of_ite h path_eq_nil_of_fault nofun
    | _ => exact path_eq_nil_of_fault h
  | bool =>
    cases v with
    | bool b => cases h
    | _ => exact path_eq_nil_of_fault h
  | record | oneRecord | orNull | list => cases hflat

/-- A value that holds no others violates shapes at itself. -/
theorem path_eq_nil_of_scalar (hv : v.IsScalar)
    (h : v.violation? Record.fields shape = some u) : u.path = [] := by
  have hrecord {r : Record} {u : Violation}
      (h : v.violation? Record.fields (.record r) = some u) : u.path = [] := by
    rw [violation?_record] at h
    cases v with
    | array | object => exact hv.elim
    | _ =>
      cases h
      rfl
  induction shape with
  | record r => exact hrecord h
  | oneRecord records =>
    rw [violation?_oneRecord] at h
    refine path_eq_nil_of_ite h nofun fun h => ?_
    obtain hmem | hmem := List.mem_append.1 (Violation.mem_of_deepest h)
    · obtain ⟨r, -, hr⟩ := List.mem_map.1 hmem
      exact hrecord hr
    · exact path_eq_nil_of_fault (List.mem_singleton.1 hmem).symm
  | orNull shape ih =>
    by_cases hnull : v = .null
    · rw [hnull] at h
      cases h
    · exact ih (violation?_orNull hnull shape ▸ h)
  | list =>
    cases v with
    | array | object => exact hv.elim
    | _ => exact path_eq_nil_of_fault h
  | constant | anyText | text | number | integer | bool => exact path_eq_nil_of_flat rfl h

/-- What an object lacks and has too much as a record. -/
def outerViolations (r : Record) (members : List (Text × Json)) : List (Option Violation) :=
  Layer.missing (Record.fields r) (foldMembers (Layer.verdict Record.fields) members) ++
    Layer.excess (Record.fields r) (foldMembers (Layer.verdict Record.fields) members)

/-- What the members of an object violate in the fields of a record. -/
def fieldViolations (fields : List Field) (members : List (Text × Json)) :
    List (Option Violation) :=
  fields.map fun field => (members.lookup field.name).bind fun w =>
    (w.violation? Record.fields field.shape).map (.under field.name)

theorem violation?_object_eq (r : Record) (members : List (Text × Json)) :
    (object members).violation? Record.fields (.record r) =
      Violation.deepest
        (outerViolations r members ++ fieldViolations (Record.fields r) members) := by
  have hpresent : Layer.present (Record.fields r)
      (foldMembers (Layer.verdict Record.fields) members) =
        fieldViolations (Record.fields r) members := by
    simp only [Layer.present, fieldViolations, lookup_foldMembers, Option.bind_map]
    rfl
  rw [violation?_record, outerViolations, ← hpresent]
  rfl

/-- How an object departs from a record: by what it lacks, by what it has too much, and by what its
members violate in their fields. -/
inductive Departs (r : Record) (members : List (Text × Json)) : Violation → Prop where
  | lacks {field : Field} (hf : field ∈ Record.fields r) (hr : field.required)
    (h : members.lookup field.name = none) : Departs r members ⟨[], .lacks field.name⟩
  | hasMore {key : Text} (h : (members.lookup key).isSome)
    (hkey : key ∉ (Record.fields r).map Field.name) : Departs r members ⟨[], .hasMore⟩
  | inside {field : Field} {w : Json} {u : Violation} (hf : field ∈ Record.fields r)
    (hw : members.lookup field.name = some w)
    (h : w.violation? Record.fields field.shape = some u) : Departs r members (u.under field.name)

theorem mem_outerViolations : some u ∈ outerViolations r members ↔
    (∃ field ∈ Record.fields r, field.required ∧ members.lookup field.name = none ∧
      u = ⟨[], .lacks field.name⟩) ∨
    ∃ key, (members.lookup key).isSome ∧ key ∉ (Record.fields r).map Field.name ∧
      u = ⟨[], .hasMore⟩ := by
  rw [outerViolations, List.mem_append]
  refine or_congr ?_ ?_
  · simp only [Layer.missing, List.mem_map, List.mem_filter, Bool.and_eq_true,
      Option.isNone_iff_eq_none, lookup_foldMembers, Option.map_eq_none_iff, Layer.fault,
      Option.some_inj, and_assoc, @eq_comm _ _ u]
  · have hkeys := map_fst_foldMembers (Layer.verdict Record.fields) members
    constructor
    · intro h
      obtain ⟨member, hmember, hu⟩ := List.mem_map.1 h
      obtain ⟨hmem, hkey⟩ := List.mem_filter.1 hmember
      rw [Bool.not_eq_true', ← Bool.not_eq_true, List.contains_iff_mem] at hkey
      refine ⟨member.1, lookup_isSome_iff.2 ?_, hkey, (Option.some.inj hu).symm⟩
      rw [← hkeys]
      exact List.mem_map_of_mem hmem
    · rintro ⟨key, h, hkey, rfl⟩
      rw [lookup_isSome_iff, ← hkeys] at h
      obtain ⟨member, hmem, rfl⟩ := List.mem_map.1 h
      refine List.mem_map.2 ⟨member, List.mem_filter.2 ⟨hmem, ?_⟩, rfl⟩
      rw [Bool.not_eq_true', ← Bool.not_eq_true, List.contains_iff_mem]
      exact hkey

theorem mem_fieldViolations {fields : List Field} : some u ∈ fieldViolations fields members ↔
    ∃ field ∈ fields, ∃ w, members.lookup field.name = some w ∧
      ∃ v, w.violation? Record.fields field.shape = some v ∧ v.under field.name = u := by
  simp only [fieldViolations, List.mem_map, Option.bind_eq_some_iff, Option.map_eq_some_iff]

theorem mem_violations :
    some u ∈ outerViolations r members ++ fieldViolations (Record.fields r) members ↔
      Departs r members u := by
  rw [List.mem_append, mem_outerViolations, mem_fieldViolations]
  constructor
  · rintro ((⟨field, hf, hr, h, rfl⟩ | ⟨key, h, hkey, rfl⟩) | ⟨field, hf, w, hw, v, hv, rfl⟩)
    · exact .lacks hf hr h
    · exact .hasMore h hkey
    · exact .inside hf hw hv
  · rintro (⟨hf, hr, h⟩ | ⟨h, hkey⟩ | ⟨hf, hw, h⟩)
    · exact .inl (.inl ⟨_, hf, hr, h, rfl⟩)
    · exact .inl (.inr ⟨_, h, hkey, rfl⟩)
    · exact .inr ⟨_, hf, _, hw, _, h, rfl⟩

section Items

variable {before after : List Json}

theorem itemViolations_append (shape : Shape) (i : Nat) (before after : List Verdict) :
    Layer.itemViolations shape i (before ++ after) =
      Layer.itemViolations shape i before ++
        Layer.itemViolations shape (i + before.length) after := by
  induction before generalizing i with
  | nil => rfl
  | cons verdict rest ih =>
    rw [List.cons_append, Layer.itemViolations, Layer.itemViolations, ih, List.cons_append,
      List.length_cons, Nat.add_right_comm, Nat.add_assoc]

theorem violation?_item (hbefore : ∀ item ∈ before, item.Fits shape)
    (hafter : ∀ item ∈ after, item.Fits shape) (h : v.violation? Record.fields shape = some u) :
    (array (before ++ v :: after)).violation? Record.fields (.list shape) =
      some (u.under (Text.ofNat before.length)) := by
  have hitem : (v.fold (Layer.verdict Record.fields)).of shape = some u := h
  rw [violation?_list, List.map_append, List.map_cons, itemViolations_append, Layer.itemViolations,
    hitem, Option.map_some, Nat.zero_add, List.length_map]
  refine Violation.deepest_append ?_ (Violation.deepest_cons ?_)
  · intro a ha w hw
    rw [itemViolations_eq_none.2 hbefore a ha] at hw
    cases hw
  · intro a ha w hw
    rw [itemViolations_eq_none.2 hafter a ha] at hw
    cases hw

end Items

end Json

end BrookSyntax
