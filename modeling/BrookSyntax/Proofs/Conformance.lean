import Mathlib.Data.List.Forall2
import Mathlib.Data.List.Nodup
import BrookSyntax.Proofs.JsonText
import BrookSyntax.Tree.Shape

namespace BrookSyntax

/-- The value has a shape and is read back from its text. -/
structure Json.Conforms (v : Json) (shape : Shape) : Prop where
  proper : v.Proper
  fits : v.violation? Record.fields shape = none

namespace Violation

theorem deeper_eq_none {a b : Option Violation} : deeper a b = none ↔ a = none ∧ b = none := by
  cases a with
  | none =>
    rw [deeper]
    exact ⟨fun h => ⟨rfl, h⟩, fun h => h.2⟩
  | some a =>
    cases b with
    | none => simp only [deeper, reduceCtorEq, false_and]
    | some b =>
      rw [deeper]
      split <;> simp only [reduceCtorEq, and_false]

theorem deepest_eq_none {violations : List (Option Violation)} :
    deepest violations = none ↔ ∀ v ∈ violations, v = none := by
  induction violations with
  | nil => simp only [deepest, List.foldr_nil, List.not_mem_nil, false_implies, implies_true]
  | cons v rest ih =>
    rw [List.forall_mem_cons, ← ih]
    exact deeper_eq_none

end Violation

namespace Json

variable {α : Type} {key : Text} {members : List (Text × Json)} {r : Record} {fields : List Field}

theorem lookup_foldMembers (f : Layer α → α) (key : Text) (members : List (Text × Json)) :
    (foldMembers f members).lookup key = (members.lookup key).map (fold f) := by
  induction members with
  | nil => rfl
  | cons member rest ih =>
    obtain ⟨k, v⟩ := member
    rw [foldMembers, lookup_cons, lookup_cons]
    split
    · rfl
    · exact ih

theorem foldItems_eq_map (f : Layer α → α) (items : List Json) :
    foldItems f items = items.map (fold f) := by
  induction items with
  | nil => rfl
  | cons item rest ih => rw [foldItems, ih, List.map_cons]

theorem map_fst_foldMembers (f : Layer α → α) (members : List (Text × Json)) :
    (foldMembers f members).map Prod.fst = members.map Prod.fst := by
  induction members with
  | nil => rfl
  | cons member rest ih =>
    obtain ⟨k, v⟩ := member
    rw [foldMembers, List.map_cons, List.map_cons, ih]

/-- What is known of a record is the verdict on its fields. -/
theorem violation?_record (v : Json) (r : Record) :
    v.violation? Record.fields (.record r) =
      match v with
      | .object members =>
        (Layer.object (foldMembers (Layer.verdict Record.fields) members)).ofRecord
          (Record.fields r)
      | _ => some ⟨[], .notOfType "object"⟩ := by
  cases v <;> cases r <;> rfl

section Fields

variable {verdicts : List (Text × Verdict)}

theorem missing_eq_none : (∀ v ∈ Layer.missing fields verdicts, v = none) ↔
    ∀ field ∈ fields, field.required → (verdicts.lookup field.name).isSome := by
  have hfault (fault : Fault) : Layer.fault fault = none ↔ False := by
    simp only [Layer.fault, reduceCtorEq]
  simp only [Layer.missing, List.forall_mem_map, List.mem_filter, hfault, imp_false, not_and,
    Bool.and_eq_true, Option.isNone_iff_eq_none, ← Option.isSome_iff_ne_none]

theorem excess_eq_none : (∀ v ∈ Layer.excess fields verdicts, v = none) ↔
    ∀ key ∈ verdicts.map Prod.fst, key ∈ fields.map Field.name := by
  have hfault (fault : Fault) : Layer.fault fault = none ↔ False := by
    simp only [Layer.fault, reduceCtorEq]
  simp only [Layer.excess, List.forall_mem_map, List.mem_filter, hfault, imp_false, not_and,
    Bool.not_eq_true', Bool.not_eq_false, List.contains_iff_mem]

theorem present_eq_none : (∀ v ∈ Layer.present fields verdicts, v = none) ↔
    ∀ field ∈ fields, ∀ verdict, verdicts.lookup field.name = some verdict →
      verdict.of field.shape = none := by
  simp only [Layer.present, List.forall_mem_map, Option.bind_eq_none_iff, Option.map_eq_none_iff]

end Fields

theorem violation?_object :
    (object members).violation? Record.fields (.record r) = none ↔
      (∀ field ∈ Record.fields r, field.required → (members.lookup field.name).isSome) ∧
      (∀ key ∈ members.map Prod.fst, key ∈ (Record.fields r).map Field.name) ∧
      (∀ field ∈ Record.fields r, ∀ v, members.lookup field.name = some v →
        v.violation? Record.fields field.shape = none) := by
  rw [violation?_record]
  simp only [Layer.ofRecord, Violation.deepest_eq_none, List.forall_mem_append, missing_eq_none,
    excess_eq_none, present_eq_none, lookup_foldMembers, map_fst_foldMembers, Option.isSome_map,
    Option.map_eq_some_iff, forall_exists_index, and_imp, forall_apply_eq_imp_iff₂, and_assoc]
  rfl

theorem fields_nodup (r : Record) : ((Record.fields r).map Field.name).Nodup := by
  cases r <;> decide

theorem mem_of_lookup {v : Json} (h : members.lookup key = some v) : (key, v) ∈ members := by
  obtain ⟨before, after, rfl, -⟩ := List.lookup_eq_some_iff.1 h
  exact List.mem_append_right _ List.mem_cons_self

theorem lookup_isSome_iff {members : List (Text × α)} :
    (members.lookup key).isSome ↔ key ∈ members.map Prod.fst := by
  simp only [List.lookup_isSome_iff, beq_iff_eq, List.mem_map, @eq_comm _ key]

theorem membersProper_iff :
    Proper.MembersProper members ↔ ∀ member ∈ members, member.2.Proper := by
  induction members with
  | nil => exact ⟨fun _ => nofun, fun _ => trivial⟩
  | cons member rest ih =>
    rw [List.forall_mem_cons, ← ih]
    exact Iff.rfl

theorem allProper_iff {items : List Json} :
    Proper.AllProper items ↔ ∀ item ∈ items, item.Proper := by
  induction items with
  | nil => exact ⟨fun _ => nofun, fun _ => trivial⟩
  | cons item rest ih =>
    rw [List.forall_mem_cons, ← ih]
    exact Iff.rfl

/-- An object conforms to a record if it has the required members and all its members conform to
fields, each key once. -/
theorem conforms_object (hnodup : (members.map Prod.fst).Nodup)
    (hrequired : ∀ field ∈ Record.fields r, field.required → field.name ∈ members.map Prod.fst)
    (hmembers : ∀ member ∈ members, ∃ field ∈ Record.fields r,
      member.1 = field.name ∧ Conforms member.2 field.shape) :
    (object members).Conforms (.record r) := by
  constructor
  · refine ⟨hnodup, membersProper_iff.2 ?_⟩
    intro member hm
    obtain ⟨field, -, -, hconforms⟩ := hmembers member hm
    exact hconforms.proper
  · rw [violation?_object]
    refine ⟨fun field hf hr => lookup_isSome_iff.2 (hrequired field hf hr), ?_, ?_⟩
    · rw [List.forall_mem_map]
      intro member hm
      obtain ⟨field, hf, hname, -⟩ := hmembers member hm
      exact hname ▸ List.mem_map_of_mem hf
    · intro field hf v hv
      obtain ⟨field', hf', hname, hconforms⟩ := hmembers _ (mem_of_lookup hv)
      rw [List.inj_on_of_nodup_map (fields_nodup r) hf hf' hname]
      exact hconforms.fits

theorem exists_field {P : Json → Shape → Prop}
    (h : List.Forall₂ (fun m f => m.1 = f.name ∧ P m.2 f.shape) members fields) :
    ∀ member ∈ members, ∃ field ∈ fields, member.1 = field.name ∧ P member.2 field.shape := by
  induction h with
  | nil => exact nofun
  | @cons member field members fields hmember _ ih =>
    rw [List.forall_mem_cons]
    refine ⟨⟨field, List.mem_cons_self, hmember⟩, ?_⟩
    intro other hother
    obtain ⟨field', hf, hp⟩ := ih other hother
    exact ⟨field', List.mem_cons_of_mem _ hf, hp⟩

theorem map_fst_of_forall₂ {P : Json → Shape → Prop}
    (h : List.Forall₂ (fun m f => m.1 = f.name ∧ P m.2 f.shape) members fields) :
    members.map Prod.fst = fields.map Field.name := by
  induction h with
  | nil => rfl
  | cons h _ ih => rw [List.map_cons, List.map_cons, h.1, ih]

theorem conforms_record (h : List.Forall₂ (fun m f => m.1 = f.name ∧ Conforms m.2 f.shape) members
    (Record.fields r)) : (object members).Conforms (.record r) := by
  have hkeys := map_fst_of_forall₂ h
  apply conforms_object
  · rw [hkeys]
    exact fields_nodup r
  · intro field hf _
    rw [hkeys]
    exact List.mem_map_of_mem hf
  · exact exists_field h

section Values

variable {t : Text} {x : Binary64} {v : Json} {shape : Shape} {items : List Json}

theorem conforms_constant (t : Text) : (text t).Conforms (.constant t) :=
  ⟨trivial, if_pos rfl⟩

theorem conforms_anyText {texts : List Text} (h : t ∈ texts) :
    (text t).Conforms (.anyText texts) :=
  ⟨trivial, if_pos (List.contains_iff_mem.2 h)⟩

theorem conforms_text {n : Nat} (h : n ≤ t.length) : (text t).Conforms (.text n) :=
  ⟨trivial, if_neg (Nat.not_lt_of_le h)⟩

theorem conforms_bool (b : Bool) : (bool b).Conforms .bool := ⟨trivial, rfl⟩

theorem conforms_number (hfinite : x.isFinite) (hzero : x.isZero → x.negative = false) :
    (number x).Conforms .number :=
  ⟨⟨hfinite, hzero⟩, if_pos hfinite⟩

theorem conforms_integer {i j : Int} (h : x.toInt? = some i) (hj : j ≤ i)
    (hzero : x.isZero → x.negative = false) : (number x).Conforms (.integer j) := by
  obtain ⟨hfinite, hsigned⟩ := Binary64.signed_of_toInt? h
  have hle : ¬ x.signed < j * 2 ^ 1074 := by
    rw [hsigned, not_lt]
    exact Int.mul_le_mul_of_nonneg_right hj (Int.le_of_lt (Int.pow_pos (by decide)))
  have hlimit : x.lessThanInt j = false := by
    rw [Binary64.lessThanInt, hfinite, decide_eq_false hle]
    rfl
  refine ⟨⟨hfinite, hzero⟩, ?_⟩
  change (if x.toInt?.isNone then _ else if x.lessThanInt j then _ else none) = none
  rw [h, hlimit]
  rfl

theorem conforms_null (shape : Shape) : null.Conforms (.orNull shape) := ⟨trivial, rfl⟩

theorem conforms_orNull (h : v.Conforms shape) : v.Conforms (.orNull shape) := by
  refine ⟨h.proper, ?_⟩
  have hfits := h.fits
  cases v with
  | null => rfl
  | bool => exact hfits
  | number => exact hfits
  | text => exact hfits
  | array => exact hfits
  | object => exact hfits

theorem itemViolations_eq_none {i : Nat} :
    (∀ w ∈ Layer.itemViolations shape i (items.map (fold (Layer.verdict Record.fields))),
      w = none) ↔ ∀ item ∈ items, item.violation? Record.fields shape = none := by
  induction items generalizing i with
  | nil => exact ⟨fun _ => nofun, fun _ => nofun⟩
  | cons item rest ih =>
    rw [List.map_cons, Layer.itemViolations, List.forall_mem_cons, List.forall_mem_cons, ih,
      Option.map_eq_none_iff]
    exact Iff.rfl

theorem conforms_list (h : ∀ item ∈ items, item.Conforms shape) :
    (array items).Conforms (.list shape) := by
  refine ⟨allProper_iff.2 fun item hi => (h item hi).proper, ?_⟩
  change Violation.deepest (Layer.itemViolations shape 0 (foldItems _ items)) = none
  rw [foldItems_eq_map, Violation.deepest_eq_none]
  exact itemViolations_eq_none.2 fun item hi => (h item hi).fits

end Values

/-- The field that names the kind of a node. -/
def kindField (kind : Text) : Field := { name := "kind", shape := .constant kind }

/-- An object conforms to one record only of those that name different kinds. -/
theorem violation?_other {r' : Record} {kind kind' : Text}
    (h : (object members).violation? Record.fields (.record r) = none)
    (hkind : kindField kind ∈ Record.fields r) (hkind' : kindField kind' ∈ Record.fields r')
    (hne : kind ≠ kind') : (object members).violation? Record.fields (.record r') ≠ none := by
  intro h'
  obtain ⟨hrequired, -, hpresent⟩ := violation?_object.1 h
  obtain ⟨-, -, hpresent'⟩ := violation?_object.1 h'
  obtain ⟨v, hv⟩ := Option.isSome_iff_exists.1 (hrequired _ hkind rfl)
  have hfits := hpresent _ hkind v hv
  have hfits' := hpresent' _ hkind' v hv
  cases v with
  | text t =>
    have hconstant {k : Text}
        (ht : (text t).violation? Record.fields (.constant k) = none) : t = k := by
      by_contra hnot
      have hfault : (text t).violation? Record.fields (.constant k) = Layer.fault .notConstant :=
        if_neg hnot
      rw [hfault] at ht
      cases ht
    exact hne ((hconstant hfits).symm.trans (hconstant hfits'))
  | _ => cases hfits

/-- A node conforms to a choice of records with different kinds if it conforms to one of them. -/
theorem conforms_oneRecord {records : List Record} (kind : Record → Text)
    (hkinds : ∀ r ∈ records, kindField (kind r) ∈ Record.fields r)
    (hnodup : (records.map kind).Nodup) (hr : r ∈ records)
    (h : (object members).Conforms (.record r)) :
    (object members).Conforms (.oneRecord records) := by
  refine ⟨h.proper, ?_⟩
  have hone (r' : Record) (hr' : r' ∈ records) :
      ((object members).violation? Record.fields (.record r')).isNone = (r' == r) := by
    by_cases he : r' = r
    · rw [he, h.fits, beq_self_eq_true]
      rfl
    · have hne : kind r ≠ kind r' := fun hk => he (List.inj_on_of_nodup_map hnodup hr' hr hk.symm)
      have hother := violation?_other h.fits (hkinds r hr) (hkinds r' hr') hne
      rw [beq_eq_false_iff_ne.2 he, Option.isNone_eq_false_iff, Option.isSome_iff_ne_none]
      exact hother
  have hcount : ((records.map fun r' => (object members).violation? Record.fields
      (.record r')).filter Option.isNone).length = 1 := by
    rw [List.filter_map, List.length_map]
    have hfilter : records.filter (Option.isNone ∘ fun r' =>
        (object members).violation? Record.fields (.record r')) = records.filter (· == r) :=
      List.filter_congr hone
    rw [hfilter, ← List.count_eq_length_filter]
    exact List.count_eq_one_of_mem (List.Nodup.of_map _ hnodup) hr
  exact if_pos hcount

end Json

end BrookSyntax
