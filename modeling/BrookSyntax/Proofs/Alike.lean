import BrookSyntax.Proofs.Failing
import BrookSyntax.Proofs.Fits
import BrookSyntax.Proofs.Storable

namespace BrookSyntax

namespace Binary64

variable {x y : Binary64} {i : Int} {n : Nat}

theorem scaled_eq_natAbs (x : Binary64) : x.scaled = x.signed.natAbs := by
  rw [signed]
  split <;> omega

theorem signed_of_isZero (h : x.isZero) : x.signed = zero.signed := by
  have hrank : x.rank = 0 := beq_iff_eq.1 h
  have hscaled : x.scaled = 0 := by
    rw [scaled, hrank]
    rfl
  rw [signed, hscaled]
  split <;> rfl

theorem natAbs_mul_two_pow (i : Int) (k : Nat) : (i * 2 ^ k).natAbs = i.natAbs * 2 ^ k := by
  rw [Int.natAbs_mul, Int.natAbs_pow]
  rfl

theorem toInt?_eq_some : x.toInt? = some i ↔ x.isFinite ∧ x.signed = i * 2 ^ 1074 := by
  refine ⟨signed_of_toInt?, fun ⟨hfinite, hsigned⟩ => ?_⟩
  have hscaled : x.scaled = i.natAbs * 2 ^ 1074 := by
    rw [scaled_eq_natAbs, hsigned, natAbs_mul_two_pow]
  have hwhole : x.isWhole = true := by
    rw [isWhole, hfinite, hscaled, Nat.mul_mod_left]
    rfl
  rw [toInt?, if_pos hwhole, trunc, hsigned, mul_tdiv_two_pow]

/-- The integer that a number is depends on its value, not on its sign. -/
theorem toInt?_congr (hx : x.isFinite) (hy : y.isFinite) (h : x.signed = y.signed) :
    x.toInt? = y.toInt? := by
  apply Option.ext
  intro i
  rw [toInt?_eq_some, toInt?_eq_some, hx, hy, h]

theorem ofNat_of_toInt? (h : x.toInt? = some (n : Int)) :
    (ofNat n).isFinite ∧ (ofNat n).signed = x.signed := by
  obtain ⟨hfinite, hsigned⟩ := toInt?_eq_some.1 h
  have hscaled : x.scaled = n * 2 ^ 1074 := by
    rw [scaled_eq_natAbs, hsigned, natAbs_mul_two_pow, Int.natAbs_natCast]
  have hrank : (ofNat n).rank = x.rank := by
    rw [ofNat, ofRatio, ← hscaled, roundRank_scaled]
    exact Nat.min_eq_left x.rank_le
  have hvalue : (ofNat n).signed = (ofNat n).scaled := rfl
  have hnonneg : 0 ≤ x.signed := by
    rw [hsigned]
    exact Int.mul_nonneg (Int.natCast_nonneg n) (Int.le_of_lt (Int.pow_pos (by decide)))
  constructor
  · rw [isFinite, hrank]
    exact hfinite
  · rw [hvalue, scaled, hrank, ← scaled, scaled_eq_natAbs, Int.natAbs_of_nonneg hnonneg]

theorem represents_of_toInt? (h : x.toInt? = some (n : Int)) : Represents n := by
  obtain ⟨hfinite, hsigned⟩ := ofNat_of_toInt? h
  exact toInt?_eq_some.2 ⟨hfinite, hsigned.trans (toInt?_eq_some.1 h).2⟩

end Binary64

namespace Json

/-- The values are the same but for the order of the members of objects and the sign of zero. -/
inductive Alike : Json → Json → Prop where
  | null : Alike .null .null
  | bool (value : Bool) : Alike (.bool value) (.bool value)
  | text (value : Text) : Alike (.text value) (.text value)
  | number {x y : Binary64} (hx : x.isFinite) (hy : y.isFinite) (h : x.signed = y.signed) :
    Alike (.number x) (.number y)
  | array {items others : List Json} (hlength : items.length = others.length)
    (h : ∀ v w, (v, w) ∈ items.zip others → Alike v w) : Alike (.array items) (.array others)
  | object {members others : List (Text × Json)}
    (hkeys : ∀ key, (members.lookup key).isSome ↔ (others.lookup key).isSome)
    (h : ∀ key v w, members.lookup key = some v → others.lookup key = some w → Alike v w) :
    Alike (.object members) (.object others)

/-- A value stands anywhere inside another one, or is that one. -/
inductive Contains : Json → Json → Prop where
  | self (v : Json) : Contains v v
  | item {items : List Json} {v w : Json} (hmem : v ∈ items) (h : Contains v w) :
    Contains (.array items) w
  | member {members : List (Text × Json)} {key : Text} {v w : Json}
    (hmem : members.lookup key = some v) (h : Contains v w) : Contains (.object members) w

theorem Contains.trans {u v w : Json} (h : v.Contains w) (hu : u.Contains v) : u.Contains w := by
  induction hu with
  | self => exact h
  | item hmem _ ih => exact .item hmem (ih h)
  | member hmem _ ih => exact .member hmem (ih h)

section Same

variable {v w u : Json} {shape : Shape} {r : Record} {members others : List (Text × Json)}
  {items items' : List Json}

theorem sizeOf_lt_of_item (h : w ∈ items) : sizeOf w < sizeOf (array items) := by
  have hmem := List.sizeOf_lt_of_mem h
  rw [array.sizeOf_spec]
  omega

theorem sizeOf_lt_of_member {member : Text × Json} (h : member ∈ members) :
    sizeOf member.2 < sizeOf (object members) := by
  have hmem := List.sizeOf_lt_of_mem h
  obtain ⟨key, w⟩ := member
  simp only [Prod.mk.sizeOf_spec] at hmem
  rw [object.sizeOf_spec]
  change sizeOf w < _
  omega

theorem not_fits_record (h : ∀ members, v ≠ .object members) : ¬ v.Fits (.record r) := by
  intro hfits
  obtain ⟨members, rfl⟩ := fits_record hfits
  exact h members rfl

theorem fits_oneRecord_congr (h : ∀ r, v.Fits (.record r) ↔ w.Fits (.record r))
    (records : List Record) : v.Fits (.oneRecord records) ↔ w.Fits (.oneRecord records) := by
  have hnone : (fun r => (v.violation? Record.fields (.record r)).isNone) =
      fun r => (w.violation? Record.fields (.record r)).isNone := by
    funext r
    rw [Bool.eq_iff_iff, Option.isNone_iff_eq_none, Option.isNone_iff_eq_none]
    exact h r
  rw [fits_oneRecord_length, fits_oneRecord_length, hnone]

theorem fits_object_congr (hkeys : ∀ key, (members.lookup key).isSome ↔ (others.lookup key).isSome)
    (h : ∀ key v w, members.lookup key = some v → others.lookup key = some w →
      ∀ shape, v.Fits shape ↔ w.Fits shape) :
    (object members).Fits (.record r) ↔ (object others).Fits (.record r) := by
  have hfields (field : Field) :
      (∀ v, members.lookup field.name = some v → v.Fits field.shape) ↔
        ∀ w, others.lookup field.name = some w → w.Fits field.shape := by
    have hkey := hkeys field.name
    cases hv : members.lookup field.name with
    | none =>
      rw [hv] at hkey
      cases hw : others.lookup field.name with
      | none => exact Iff.rfl
      | some w =>
        rw [hw] at hkey
        cases hkey.2 rfl
    | some v =>
      rw [hv] at hkey
      obtain ⟨w, hw⟩ := Option.isSome_iff_exists.1 (hkey.1 rfl)
      simp only [hw, Option.some.injEq, forall_eq']
      exact h _ v w hv hw _
  simp only [fits_object, hkeys, hfields]

/-- The shapes that a value has depend on what it is and on its records and lists. -/
theorem fits_congr (hnull : v = .null ↔ w = .null) (hbool : ∀ b, v = .bool b ↔ w = .bool b)
    (htext : ∀ t, v = .text t ↔ w = .text t) (hnumber : v.Fits .number ↔ w.Fits .number)
    (hinteger : ∀ least, v.Fits (.integer least) ↔ w.Fits (.integer least))
    (hlist : ∀ item, v.Fits (.list item) ↔ w.Fits (.list item))
    (hrecord : ∀ r, v.Fits (.record r) ↔ w.Fits (.record r)) (shape : Shape) :
    v.Fits shape ↔ w.Fits shape := by
  induction shape with
  | constant => rw [fits_constant, fits_constant, htext]
  | anyText => simp only [fits_anyText, htext]
  | text => simp only [fits_text, htext]
  | number => exact hnumber
  | integer least => exact hinteger least
  | bool => simp only [fits_bool, hbool]
  | record r => exact hrecord r
  | oneRecord records => exact fits_oneRecord_congr hrecord records
  | orNull shape ih => rw [fits_orNull, fits_orNull, hnull, ih]
  | list item => exact hlist item

/-- Values that are alike have the same shapes. -/
theorem Alike.fits (h : v.Alike w) (shape : Shape) : v.Fits shape ↔ w.Fits shape := by
  have hneither {v w : Json} (hv : ∀ members, v ≠ .object members)
      (hw : ∀ members, w ≠ .object members) (r : Record) :
      v.Fits (.record r) ↔ w.Fits (.record r) :=
    iff_of_false (not_fits_record hv) (not_fits_record hw)
  induction h generalizing shape with
  | null => exact Iff.rfl
  | bool => exact Iff.rfl
  | text => exact Iff.rfl
  | @number x y hx hy h =>
    refine fits_congr (v := .number x) (w := .number y) (iff_of_false nofun nofun)
      (fun _ => iff_of_false nofun nofun) (fun _ => iff_of_false nofun nofun) ?_ ?_
      (fun _ => Iff.rfl) (hneither nofun nofun) shape
    · simp only [fits_number, Json.number.injEq, exists_eq_left', hx, hy]
    · simp only [fits_integer, Json.number.injEq, exists_and_left, exists_eq_left',
        Binary64.toInt?_congr hx hy h, implies_true]
  | @array items others hlength _ ih =>
    refine fits_congr (v := .array items) (w := .array others) (iff_of_false nofun nofun)
      (fun _ => iff_of_false nofun nofun) (fun _ => iff_of_false nofun nofun) Iff.rfl
      (fun _ => Iff.rfl) ?_ (hneither nofun nofun) shape
    intro item
    have hpairs : List.Forall₂ (fun v w => v.Fits item ↔ w.Fits item) items others :=
      List.forall₂_iff_zip.2 ⟨hlength, fun hmem => ih _ _ hmem item⟩
    simp only [fits_list, Json.array.injEq, exists_eq_left']
    exact ⟨fun h => List.Forall₂.forall_mem_right hpairs fun v hv w hvw => hvw.1 (h v hv),
      fun h => List.Forall₂.forall_mem_right hpairs.flip fun w hw v hvw => hvw.2 (h w hw)⟩
  | @object members others hkeys _ ih =>
    exact fits_congr (v := .object members) (w := .object others) (iff_of_false nofun nofun)
      (fun _ => iff_of_false nofun nofun) (fun _ => iff_of_false nofun nofun) Iff.rfl
      (fun _ => Iff.rfl) (fun _ => Iff.rfl) (fun r => fits_object_congr hkeys ih) shape

/-- What stands inside a value stands inside every value alike. -/
theorem Alike.contains (h : v.Alike w) (hw : w.Contains u) :
    ∃ u', v.Contains u' ∧ u'.Alike u := by
  induction hw generalizing v with
  | self => exact ⟨v, .self v, h⟩
  | @item items w u hmem _ ih =>
    cases h with
    | @array others _ hlength h =>
      have hpairs : List.Forall₂ Alike others items :=
        List.forall₂_iff_zip.2 ⟨hlength, fun hmem => h _ _ hmem⟩
      obtain ⟨v, hv, hvw⟩ : ∃ v ∈ others, v.Alike w :=
        List.Forall₂.forall_mem_right (P := fun w => ∃ v ∈ others, v.Alike w) hpairs
          (fun v hv w hvw => ⟨v, hv, hvw⟩) w hmem
      obtain ⟨u', hu', halike⟩ := ih hvw
      exact ⟨u', .item hv hu', halike⟩
  | @member members key w u hmem _ ih =>
    cases h with
    | object hkeys h =>
      obtain ⟨v, hv⟩ := Option.isSome_iff_exists.1 ((hkeys key).2 (hmem ▸ rfl))
      obtain ⟨u', hu', halike⟩ := ih (h key v w hv hmem)
      exact ⟨u', .member hv hu', halike⟩

theorem alike_array (h : List.Forall₂ Alike items items') : (array items).Alike (array items') := by
  obtain ⟨hlength, hzip⟩ := List.forall₂_iff_zip.1 h
  exact .array hlength fun v w hmem => hzip hmem

theorem Alike.of_lookup
    (hsame : ∀ key, members.lookup key = others.lookup key) (h : (Json.object others).Alike w) :
    (Json.object members).Alike w := by
  cases h with
  | object hkeys h =>
    simp only [← hsame] at hkeys h
    exact .object hkeys h

theorem alike_object
    (h : List.Forall₂ (fun m n => m.1 = n.1 ∧ m.2.Alike n.2) members others) :
    (object members).Alike (object others) := by
  have hlookup (key : Text) : members.lookup key = none ∧ others.lookup key = none ∨
      ∃ v w, members.lookup key = some v ∧ others.lookup key = some w ∧ v.Alike w := by
    induction h with
    | nil => exact .inl ⟨rfl, rfl⟩
    | @cons m n _ _ hmn _ ih =>
      rw [lookup_cons, lookup_cons, hmn.1]
      split
      · exact .inr ⟨m.2, n.2, rfl, rfl, hmn.2⟩
      · exact ih
  constructor
  · intro key
    obtain ⟨hm, ho⟩ | ⟨v, w, hm, ho, -⟩ := hlookup key
    · rw [hm, ho]
    · rw [hm, ho]
      exact Iff.rfl
  · intro key v w hv hw
    obtain ⟨hm, -⟩ | ⟨v', w', hm, ho, hvw⟩ := hlookup key
    · rw [hm] at hv
      cases hv
    · rw [hm] at hv
      rw [ho] at hw
      cases hv
      cases hw
      exact hvw

theorem lookup_perm (h : members.Perm others) (hnodup : (members.map Prod.fst).Nodup) (key : Text) :
    members.lookup key = others.lookup key := by
  induction h with
  | nil => rfl
  | cons member _ ih =>
    rw [List.map_cons, List.nodup_cons] at hnodup
    rw [lookup_cons, lookup_cons, ih hnodup.2]
  | swap m n rest =>
    have hne : m.1 ≠ n.1 := by
      rw [List.map_cons, List.map_cons, List.nodup_cons, List.mem_cons, not_or] at hnodup
      exact Ne.symm hnodup.1.1
    simp only [lookup_cons]
    split
    · next hn =>
      rw [if_neg fun hm => hne (hm.trans hn.symm)]
    · rfl
  | trans h _ ih ih' => exact (ih hnodup).trans (ih' ((h.map Prod.fst).nodup hnodup))

theorem Alike.refl : ∀ v : Json, v.Proper → v.Alike v
  | .null, _ => .null
  | .bool b, _ => .bool b
  | .text t, _ => .text t
  | .number _, hv => .number hv.1 hv.1 rfl
  | .array _, hv => alike_array (List.forall₂_same.2 fun item hitem =>
      Alike.refl item (allProper_iff.1 hv item hitem))
  | .object _, hv => alike_object (List.forall₂_same.2 fun member hmember =>
      ⟨rfl, Alike.refl member.2 (membersProper_iff.1 hv.2 member hmember)⟩)
termination_by v => sizeOf v
decreasing_by
  · exact sizeOf_lt_of_item hitem
  · exact sizeOf_lt_of_member hmember

end Same

end Json

end BrookSyntax
