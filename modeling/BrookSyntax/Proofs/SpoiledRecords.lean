import BrookSyntax.Proofs.NodeRecords

namespace BrookSyntax

open Record

namespace Json

variable {members others : List (Text × Json)} {key : Text} {value : Option Json}
  {r r' : Record} {field : Field} {u w : Violation} {x : Json} {records : List Record}

/-- The same members but for one key, where a value stands or none. -/
def SetAt (key : Text) (value : Option Json) (members others : List (Text × Json)) : Prop :=
  ∀ k, others.lookup k = if k = key then value else members.lookup k

theorem SetAt.self (h : SetAt key value members others) : others.lookup key = value :=
  (h key).trans (if_pos rfl)

theorem SetAt.other (h : SetAt key value members others) {k : Text} (hk : k ≠ key) :
    others.lookup k = members.lookup k :=
  (h k).trans (if_neg hk)

section Record

variable (hfits : (object members).Fits (.record r)) (hf : field ∈ Record.fields r)

include hfits hf

/-- A record that was right departs from its shape only where it was changed. -/
theorem departs_set (h : SetAt field.name value members others) (hu : Departs r others u) :
    (value = none ∧ field.required ∧ u = ⟨[], .lacks field.name⟩) ∨
      ∃ x w, value = some x ∧ x.violation? Record.fields field.shape = some w ∧
        u = w.under field.name := by
  obtain ⟨hrequired, hkeys, hshapes⟩ := fits_object.1 hfits
  cases hu with
  | @lacks field' hf' hr hnone =>
    by_cases hname : field'.name = field.name
    · obtain rfl := List.inj_on_of_nodup_map (fields_nodup r) hf' hf hname
      exact .inl ⟨h.self.symm.trans hnone, hr, rfl⟩
    · have hsome := hrequired field' hf' hr
      rw [← h.other hname, hnone] at hsome
      cases hsome
  | @hasMore k hsome hk =>
    by_cases hname : k = field.name
    · exact absurd (hname ▸ List.mem_map_of_mem hf) hk
    · exact absurd (hkeys k (h.other hname ▸ hsome)) hk
  | @inside field' y v hf' hy hv =>
    by_cases hname : field'.name = field.name
    · obtain rfl := List.inj_on_of_nodup_map (fields_nodup r) hf' hf hname
      exact .inr ⟨y, v, h.self.symm.trans hy, hv, rfl⟩
    · have hnone := hshapes field' hf' y (h.other hname ▸ hy)
      rw [Fits, hv] at hnone
      cases hnone

theorem violation?_changed (h : SetAt field.name (some x) members others)
    (hw : x.violation? Record.fields field.shape = some w) :
    (object others).violation? Record.fields (.record r) = some (w.under field.name) := by
  rw [violation?_object_eq]
  refine Violation.deepest_eq_of_mem (mem_violations.2 (.inside hf h.self hw)) ?_
  rintro _ hmem v rfl
  obtain ⟨hnone, -⟩ | ⟨y, w', hy, hw', rfl⟩ :=
    departs_set hfits hf h (mem_violations.1 hmem)
  · cases hnone
  · obtain rfl := Option.some.inj hy
    rw [hw, Option.some_inj] at hw'
    exact .inr (hw' ▸ rfl)

theorem violation?_deleted (hr : field.required) (h : SetAt field.name none members others) :
    (object others).violation? Record.fields (.record r) = some ⟨[], .lacks field.name⟩ := by
  rw [violation?_object_eq]
  refine Violation.deepest_eq_of_mem (mem_violations.2 (.lacks hf hr h.self)) ?_
  rintro _ hmem v rfl
  obtain ⟨-, -, rfl⟩ | ⟨y, w', hy, -⟩ := departs_set hfits hf h (mem_violations.1 hmem)
  · exact .inr rfl
  · cases hy

end Record

/-- The violation of a value that is a node of another kind. -/
def otherKind : Violation := ⟨["kind"], .notConstant⟩

/-- An object that names another kind, and whose members violate fields at themselves at most, is
told to be of another kind. -/
theorem violation?_otherKind {kind : Text} (hr : r.isNode)
    (hkind : others.lookup ("kind" : Text) = some (.text kind)) (hne : kind ≠ nodeKind r)
    (hinside : ∀ field ∈ Record.fields r, ∀ y v, others.lookup field.name = some y →
      y.violation? Record.fields field.shape = some v → v.path = []) :
    (object others).violation? Record.fields (.record r) = some otherKind := by
  obtain ⟨rest, hrest⟩ := fields_eq_kindField hr
  have hfirst : fieldViolations (Record.fields r) others =
      some otherKind :: fieldViolations rest others := by
    have hviolation : (Json.text kind).violation? Record.fields (.constant (nodeKind r)) =
        some ⟨[], .notConstant⟩ := if_neg hne
    have hname : (kindField (nodeKind r)).name = Text.ofString "kind" := rfl
    have hshape : (kindField (nodeKind r)).shape = .constant (nodeKind r) := rfl
    rw [hrest, fieldViolations, List.map_cons, hname, hshape, hkind, Option.bind_some, hviolation]
    rfl
  have hwithin : Violation.Within otherKind.path.length (fieldViolations rest others) := by
    rintro _ hmem v rfl
    obtain ⟨field, hf, y, hy, v, hv, rfl⟩ := mem_fieldViolations.1 hmem
    have hpath := hinside field (hrest ▸ List.mem_cons_of_mem _ hf) y v hy hv
    rw [Violation.under, hpath]
    exact Nat.le_refl 1
  rw [violation?_object_eq, hfirst]
  refine Violation.deepest_append ?_ (Violation.deepest_cons hwithin)
  rintro _ hmem v rfl
  obtain ⟨_, _, _, _, rfl⟩ | ⟨_, _, _, rfl⟩ := mem_outerViolations.1 hmem <;>
    exact Nat.zero_lt_one

section Choice

variable (hc : IsChoice records) (hr : r ∈ records) (hfits : (object members).Fits (.record r))
  (hf : field ∈ Record.fields r) (hkind : field.name ≠ Text.ofString "kind")
  (hset : SetAt field.name value members others)
  (hscalar : field.shape.isFlat → ∀ y ∈ value, y.IsScalar)

include hc hr hfits hf hset hscalar

/-- What violates a field of another record of the choice violates it at itself, or it is the value
that was changed and violates its own field too. -/
theorem inside_other {field' : Field} {y : Json} (hr' : r' ∈ records)
    (hf' : field' ∈ Record.fields r') (hy : others.lookup field'.name = some y)
    (hw : y.violation? Record.fields field'.shape = some w) :
    w.path = [] ∨ field'.name = field.name ∧ value = some y ∧
      y.violation? Record.fields field.shape = some w := by
  by_cases hname : field'.name = field.name
  · rw [hname, hset.self] at hy
    obtain hshape | hflat | hflat := hc.shape_eq hr hr' hf hf' hname.symm
    · exact .inr ⟨hname, hy, hshape ▸ hw⟩
    · exact .inl (path_eq_nil_of_flat hflat hw)
    · exact .inl (path_eq_nil_of_scalar (hscalar hflat y hy) hw)
  · rw [hset.other hname] at hy
    obtain ⟨own, hown, hownName, hyfits⟩ := exists_field_of_lookup hfits hy
    obtain hshape | hflat | hflat := hc.shape_eq hr hr' hown hf' hownName
    · rw [Fits, ← hshape, hw] at hyfits
      cases hyfits
    · exact .inl (path_eq_nil_of_flat hflat hw)
    · exact .inl (path_eq_nil_of_scalar (isScalar_of_fits hflat hyfits) hw)

include hkind

/-- Another record of the choice is violated at the kind, unless the changed value is violated
inside in the same way as in its own record. -/
theorem violation?_other_record (hr' : r' ∈ records) (hne : r' ≠ r) :
    (object others).violation? Record.fields (.record r') = some otherKind ∨
      ∃ y w, value = some y ∧ y.violation? Record.fields field.shape = some w ∧ w.path ≠ [] ∧
        (object others).violation? Record.fields (.record r') = some (w.under field.name) := by
  by_cases hdeep : ∃ field' ∈ Record.fields r', ∃ y w, others.lookup field'.name = some y ∧
      y.violation? Record.fields field'.shape = some w ∧ w.path ≠ []
  · obtain ⟨field', hf', y, w, hy, hw, hpath⟩ := hdeep
    obtain ⟨hname, hvalue, hown⟩ :=
      (inside_other hc hr hfits hf hset hscalar hr' hf' hy hw).resolve_left hpath
    refine .inr ⟨y, w, hvalue, hown, hpath, ?_⟩
    rw [violation?_object_eq]
    refine Violation.deepest_eq_of_mem (mem_violations.2 (hname ▸ .inside hf' hy hw)) ?_
    rintro _ hmem v rfl
    have hlength : 1 < (w.under field.name).path.length :=
      Nat.succ_lt_succ (List.length_pos_iff.2 hpath)
    cases mem_violations.1 hmem with
    | lacks => exact .inl (Nat.zero_lt_of_lt hlength)
    | hasMore => exact .inl (Nat.zero_lt_of_lt hlength)
    | @inside field₂ y₂ w₂ hf₂ hy₂ hw₂ =>
      obtain hnil | ⟨hname₂, hvalue₂, hown₂⟩ :=
        inside_other hc hr hfits hf hset hscalar hr' hf₂ hy₂ hw₂
      · refine .inl ?_
        rw [Violation.under, hnil]
        exact hlength
      · obtain rfl := Option.some.inj (hvalue.symm.trans hvalue₂)
        obtain rfl := Option.some.inj (hown.symm.trans hown₂)
        exact .inr (congrArg (w.under ·) hname₂)
  · have hkindOf : others.lookup ("kind" : Text) = some (.text (nodeKind r)) :=
      (hset.other (Ne.symm hkind)).trans (lookup_kind (hc.isNode hr) hfits)
    refine .inl (violation?_otherKind (hc.isNode hr') hkindOf ?_ ?_)
    · exact fun he => hne (nodeKind_inj (hc.isNode hr') (hc.isNode hr) he.symm)
    · intro field' hf' y w hy hw
      by_contra hpath
      exact hdeep ⟨field', hf', y, w, hy, hw, hpath⟩

theorem violation?_choice (hu : (object others).violation? Record.fields (.record r) = some u) :
    (object others).violation? Record.fields (.oneRecord records) = Violation.deepest
      ((records.map fun r' => (object others).violation? Record.fields (.record r')) ++
        [Layer.fault .matchesNotOne]) := by
  have hnone : (records.map fun r' => (object others).violation? Record.fields
      (.record r')).filter Option.isNone = [] := by
    rw [List.filter_eq_nil_iff, List.forall_mem_map]
    intro r' hr'
    rw [Option.isNone_iff_eq_none]
    by_cases hne : r' = r
    · rw [hne, hu]
      nofun
    · obtain h | ⟨_, _, _, _, _, h⟩ :=
        violation?_other_record hc hr hfits hf hkind hset hscalar hr' hne <;>
      · rw [h]
        nofun
  rw [violation?_oneRecord, hnone]
  exact if_neg nofun

theorem violation?_choice_deep {y : Json} (hvalue : value = some y)
    (hw : y.violation? Record.fields field.shape = some w) (hpath : w.path ≠ []) :
    (object others).violation? Record.fields (.oneRecord records) =
      some (w.under field.name) := by
  subst hvalue
  have hu := violation?_changed hfits hf hset hw
  rw [violation?_choice hc hr hfits hf hkind hset hscalar hu]
  have hlength : 1 < (w.under field.name).path.length :=
    Nat.succ_lt_succ (List.length_pos_iff.2 hpath)
  refine Violation.deepest_eq_of_mem
    (List.mem_append_left _ (List.mem_map.2 ⟨r, hr, hu⟩)) ?_
  rintro _ hmem v rfl
  obtain hmem | hmem := List.mem_append.1 hmem
  · obtain ⟨r', hr', hv⟩ := List.mem_map.1 hmem
    by_cases hne : r' = r
    · rw [hne, hu] at hv
      exact .inr (Option.some.inj hv).symm
    · obtain h | ⟨y', w', hy', hw', -, h⟩ :=
        violation?_other_record hc hr hfits hf hkind hset hscalar hr' hne
      · rw [h] at hv
        obtain rfl := Option.some.inj hv
        exact .inl hlength
      · obtain rfl := Option.some.inj hy'
        obtain rfl := Option.some.inj (hw.symm.trans hw')
        exact .inr (Option.some.inj (hv.symm.trans h))
  · obtain rfl := Option.some.inj (List.mem_singleton.1 hmem)
    exact .inl (Nat.zero_lt_of_lt hlength)

section Shallow

variable
  (hshallow : ∀ y ∈ value, ∀ w, y.violation? Record.fields field.shape = some w → w.path = [])

include hc hr hfits hf hkind hset hscalar hshallow

theorem violation?_other_shallow (hr' : r' ∈ records) (hne : r' ≠ r) :
    (object others).violation? Record.fields (.record r') = some otherKind := by
  obtain h | ⟨y, w, hy, hw, hpath, -⟩ :=
    violation?_other_record hc hr hfits hf hkind hset hscalar hr' hne
  · exact h
  · exact absurd (hshallow y hy w hw) hpath

theorem within_of_shallow (hu : (object others).violation? Record.fields (.record r) = some u)
    (hlength : u.path.length ≤ 1) :
    Violation.Within 1 ((records.map fun r' =>
      (object others).violation? Record.fields (.record r')) ++ [Layer.fault .matchesNotOne]) := by
  rintro _ hmem v rfl
  obtain hmem | hmem := List.mem_append.1 hmem
  · obtain ⟨r', hr', hv⟩ := List.mem_map.1 hmem
    by_cases hne : r' = r
    · rw [hne, hu] at hv
      exact Option.some.inj hv ▸ hlength
    · rw [violation?_other_shallow hc hr hfits hf hkind hset hscalar hshallow hr' hne] at hv
      exact Option.some.inj hv ▸ Nat.le_refl 1
  · obtain rfl := Option.some.inj (List.mem_singleton.1 hmem)
    exact Nat.zero_le 1

/-- What is violated no deeper than at a member is told as another kind, unless it is the member
itself and the first record of the choice is the one that was spoiled. -/
theorem violation?_choice_shallow
    (hu : (object others).violation? Record.fields (.record r) = some u)
    (hlength : u.path.length ≤ 1) :
    (object others).violation? Record.fields (.oneRecord records) =
      some (if u.path ≠ [] ∧ records.head? = some r then u else otherKind) := by
  have hothers {r' : Record} (hr' : r' ∈ records) (hne : r' ≠ r) :=
    violation?_other_shallow hc hr hfits hf hkind hset hscalar hshallow hr' hne
  have hwithin := within_of_shallow hc hr hfits hf hkind hset hscalar hshallow hu hlength
  rw [violation?_choice hc hr hfits hf hkind hset hscalar hu]
  obtain ⟨first, second, rest, hrecords⟩ := hc.two_le
  have hmem := hrecords ▸ List.mem_cons_self
  rw [hrecords, List.map_cons, List.cons_append] at hwithin ⊢
  have htail := fun v hv => hwithin v (List.mem_cons_of_mem _ hv)
  by_cases hfirst : first = r
  · rw [hfirst, hu]
    by_cases hpath : u.path = []
    · have hne : second ≠ r := by
        have hnodup := hrecords ▸ hc.nodup
        rw [← hfirst]
        exact fun he => (List.nodup_cons.1 hnodup).1 (he ▸ List.mem_cons_self)
      have hsecond := hothers (hrecords ▸ List.mem_cons_of_mem _ List.mem_cons_self) hne
      rw [if_neg fun h => h.1 hpath, List.map_cons, List.cons_append, hsecond]
      refine Violation.deepest_cons_of_lt (Violation.deepest_cons ?_) ?_
      · exact fun v hv => htail v (List.mem_cons_of_mem _ hv)
      · intro v hv
        rw [← Option.some.inj hv, hpath]
        exact Nat.zero_lt_one
    · rw [if_pos ⟨hpath, rfl⟩]
      refine Violation.deepest_cons ?_
      rw [Nat.le_antisymm hlength (List.length_pos_iff.2 hpath)]
      exact htail
  · rw [if_neg fun h => hfirst (Option.some.inj h.2), hothers hmem hfirst]
    exact Violation.deepest_cons htail

end Shallow

end Choice

end Json

end BrookSyntax
