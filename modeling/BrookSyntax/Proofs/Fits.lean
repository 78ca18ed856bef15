import BrookSyntax.Proofs.Conformance

namespace BrookSyntax

namespace Json

variable {v : Json} {shape : Shape} {r : Record} {key : Text}

/-- No violation of the shape is found in the value. -/
def Fits (v : Json) (shape : Shape) : Prop := v.violation? Record.fields shape = none

theorem not_fault {fault : Fault} : Layer.fault fault ≠ none := nofun

theorem fits_constant {t : Text} : v.Fits (.constant t) ↔ v = .text t := by
  constructor
  · intro h
    cases v with
    | text s =>
      have hs : (if s = t then none else Layer.fault .notConstant) = none := h
      rw [ite_eq_left_iff] at hs
      by_contra hne
      exact not_fault (hs fun he => hne (congrArg _ he))
    | _ => exact absurd h not_fault
  · rintro rfl
    exact if_pos rfl

theorem fits_anyText {texts : List Text} : v.Fits (.anyText texts) ↔ ∃ t ∈ texts, v = .text t := by
  constructor
  · intro h
    cases v with
    | text s =>
      have hs : (if texts.contains s then none else Layer.fault .notListed) = none := h
      rw [ite_eq_left_iff] at hs
      refine ⟨s, ?_, rfl⟩
      by_contra hne
      exact not_fault (hs (mt List.contains_iff_mem.1 hne))
    | _ => exact absurd h not_fault
  · rintro ⟨t, ht, rfl⟩
    exact if_pos (List.contains_iff_mem.2 ht)

theorem fits_text {n : Nat} : v.Fits (.text n) ↔ ∃ t, v = .text t ∧ n ≤ t.length := by
  constructor
  · intro h
    cases v with
    | text s =>
      have hs : (if s.length < n then Layer.fault (.tooShort n) else none) = none := h
      rw [ite_eq_right_iff] at hs
      exact ⟨s, rfl, Nat.le_of_not_lt fun hlt => not_fault (hs hlt)⟩
    | _ => exact absurd h not_fault
  · rintro ⟨t, rfl, ht⟩
    exact if_neg (Nat.not_lt_of_le ht)

theorem fits_number : v.Fits .number ↔ ∃ x, v = .number x ∧ x.isFinite := by
  constructor
  · intro h
    cases v with
    | number x =>
      have hx : (if x.isFinite then none else Layer.fault (.notOfType "number")) = none := h
      rw [ite_eq_left_iff] at hx
      refine ⟨x, rfl, ?_⟩
      by_contra hne
      exact not_fault (hx hne)
    | _ => exact absurd h not_fault
  · rintro ⟨x, rfl, hx⟩
    exact if_pos hx

theorem fits_integer {least : Int} :
    v.Fits (.integer least) ↔ ∃ x i, v = .number x ∧ x.toInt? = some i ∧ least ≤ i := by
  have hlimit {x : Binary64} {i : Int} (hi : x.toInt? = some i) :
      x.lessThanInt least = false ↔ least ≤ i := by
    obtain ⟨hfinite, hsigned⟩ := Binary64.signed_of_toInt? hi
    have hpos : (0 : Int) < 2 ^ 1074 := Int.pow_pos (by decide)
    rw [Binary64.lessThanInt, hfinite, hsigned, Bool.true_and, decide_eq_false_iff_not, not_lt,
      Int.mul_le_mul_right hpos]
  constructor
  · intro h
    cases v with
    | number x =>
      have hx : (if x.toInt?.isNone then Layer.fault (.notOfType "integer")
        else if x.lessThanInt least then Layer.fault (.tooSmall least) else none) = none := h
      cases hi : x.toInt? with
      | none =>
        rw [hi] at hx
        exact absurd hx not_fault
      | some i =>
        rw [hi] at hx
        refine ⟨x, i, rfl, hi, (hlimit hi).1 ?_⟩
        cases hless : x.lessThanInt least with
        | false => rfl
        | true =>
          rw [hless] at hx
          exact absurd hx not_fault
    | _ => exact absurd h not_fault
  · rintro ⟨x, i, rfl, hi, hle⟩
    change (if x.toInt?.isNone then _ else if x.lessThanInt least then _ else none) = none
    rw [hi, (hlimit hi).2 hle]
    rfl

theorem fits_bool : v.Fits .bool ↔ ∃ b, v = .bool b := by
  constructor
  · intro h
    cases v with
    | bool b => exact ⟨b, rfl⟩
    | _ => exact absurd h not_fault
  · rintro ⟨b, rfl⟩
    rfl

theorem violation?_orNull (h : v ≠ .null) (shape : Shape) :
    v.violation? Record.fields (.orNull shape) = v.violation? Record.fields shape := by
  cases v with
  | null => exact absurd rfl h
  | _ => rfl

theorem fits_orNull : v.Fits (.orNull shape) ↔ v = .null ∨ v.Fits shape := by
  cases v with
  | null => exact ⟨fun _ => .inl rfl, fun _ => rfl⟩
  | _ => exact ⟨.inr, fun h => h.resolve_left nofun⟩

theorem violation?_list (items : List Json) (shape : Shape) :
    (array items).violation? Record.fields (.list shape) = Violation.deepest
      (Layer.itemViolations shape 0 (items.map (fold (Layer.verdict Record.fields)))) := by
  rw [← foldItems_eq_map]
  rfl

theorem fits_list :
    v.Fits (.list shape) ↔ ∃ items, v = .array items ∧ ∀ item ∈ items, item.Fits shape := by
  have harray (items : List Json) :
      (array items).Fits (.list shape) ↔ ∀ item ∈ items, item.Fits shape := by
    rw [Fits, violation?_list, Violation.deepest_eq_none]
    exact itemViolations_eq_none
  constructor
  · intro h
    cases v with
    | array items => exact ⟨items, rfl, (harray items).1 h⟩
    | _ => exact absurd h not_fault
  · rintro ⟨items, rfl, h⟩
    exact (harray items).2 h

section Members

variable {members : List (Text × Json)}

/-- An object has a record's shape if it has its required members and no others than its fields,
each of the field's shape. -/
theorem fits_object : (object members).Fits (.record r) ↔
    (∀ field ∈ Record.fields r, field.required → (members.lookup field.name).isSome) ∧
    (∀ key, (members.lookup key).isSome → key ∈ (Record.fields r).map Field.name) ∧
    (∀ field ∈ Record.fields r, ∀ w, members.lookup field.name = some w → w.Fits field.shape) := by
  simp only [Fits, violation?_object, lookup_isSome_iff]

theorem exists_field_of_lookup (h : (object members).Fits (.record r))
    (hv : members.lookup key = some v) :
    ∃ field ∈ Record.fields r, field.name = key ∧ v.Fits field.shape := by
  obtain ⟨-, hkeys, hshapes⟩ := fits_object.1 h
  obtain ⟨field, hf, rfl⟩ := List.mem_map.1 (hkeys key (hv ▸ rfl))
  exact ⟨field, hf, rfl, hshapes field hf v hv⟩

theorem fits_record (h : v.Fits (.record r)) : ∃ members, v = .object members := by
  rw [Fits, violation?_record] at h
  cases v with
  | object members => exact ⟨members, rfl⟩
  | _ => cases h

theorem violation?_oneRecord (v : Json) (records : List Record) :
    v.violation? Record.fields (.oneRecord records) =
      if ((records.map fun r => v.violation? Record.fields (.record r)).filter
        Option.isNone).length = 1 then none
      else Violation.deepest ((records.map fun r => v.violation? Record.fields (.record r)) ++
        [Layer.fault .matchesNotOne]) := by
  cases v <;> rfl

theorem fits_oneRecord_length {records : List Record} : v.Fits (.oneRecord records) ↔
    (records.filter fun r => (v.violation? Record.fields (.record r)).isNone).length = 1 := by
  rw [Fits, violation?_oneRecord, List.filter_map, List.length_map, ite_eq_left_iff,
    Violation.deepest_eq_none]
  refine ⟨fun h => ?_, fun h hnot => absurd h hnot⟩
  by_contra hnot
  exact not_fault (h hnot _ (List.mem_append_right _ List.mem_cons_self))

/-- A value has the shape of a choice of records if it is exactly one of them. -/
theorem fits_oneRecord {records : List Record} (hnodup : records.Nodup) :
    v.Fits (.oneRecord records) ↔ ∃ r ∈ records, ∀ r' ∈ records, v.Fits (.record r') ↔ r' = r := by
  have hfits (r : Record) : (v.violation? Record.fields (.record r)).isNone ↔ v.Fits (.record r) :=
    Option.isNone_iff_eq_none
  rw [fits_oneRecord_length]
  constructor
  · intro hlength
    obtain ⟨r, hr⟩ := List.length_eq_one_iff.1 hlength
    have hmem (r' : Record) : r' ∈ records ∧ v.Fits (.record r') ↔ r' = r := by
      have hfilter : r' ∈ [r] ↔
          r' ∈ records ∧ (v.violation? Record.fields (.record r')).isNone := by
        rw [← hr, List.mem_filter]
      rw [← hfits, ← hfilter, List.mem_singleton]
    refine ⟨r, ((hmem r).2 rfl).1, fun r' hr' => ?_⟩
    rw [← hmem]
    exact ⟨fun h => ⟨hr', h⟩, And.right⟩
  · rintro ⟨r, hr, hone⟩
    have hfilter : records.filter (fun r => (v.violation? Record.fields (.record r)).isNone) =
        records.filter (· == r) := by
      apply List.filter_congr
      intro r' hr'
      rw [Bool.eq_iff_iff, hfits, hone r' hr', beq_iff_eq]
    rw [hfilter, ← List.count_eq_length_filter]
    exact List.count_eq_one_of_mem hnodup hr

end Members

end Json

end BrookSyntax
