import BrookSyntax.Proofs.DocumentErrors
import BrookSyntax.Proofs.DocumentRoundTrip
import BrookSyntax.Proofs.NumberText
import BrookSyntax.Proofs.SpoiledRecords

namespace BrookSyntax

open Record

namespace Record

variable {r : Record} {records : List Record}

/-- The records that come first in their choices. -/
def leading : List Record := [block, number]

theorem IsChoice.head?_eq_some (hc : IsChoice records) (hr : r ∈ records) :
    records.head? = some r ↔ r ∈ leading := by
  have hstatements : ∀ r ∈ statements, statements.head? = some r ↔ r ∈ leading := by decide
  have hexpressions : ∀ r ∈ expressions, expressions.head? = some r ↔ r ∈ leading := by decide
  obtain rfl | rfl := hc
  · exact hstatements r hr
  · exact hexpressions r hr

theorem isNode_of_mem (h : r ∈ statements ∨ r ∈ expressions) : r.isNode := by
  obtain h | h := h
  · exact IsChoice.isNode (.inl rfl) h
  · exact IsChoice.isNode (.inr rfl) h

end Record

/-- The keys under which a node of one record only may stand. -/
def soleKeys : List Text := ["thenBlock", "elseBlock", "body", "target"]

/-- The path that is told where one field of a node at a path was spoiled, by taking it away or by a
wrong value. -/
def blamedPath (r : Record) (field : Text) (deleted : Bool) (path : Path) : Path :=
  if path.getLast?.any soleKeys.contains then
    if deleted then path.dropLast ++ [Text.ofString "kind"] else path ++ [field]
  else if deleted = false ∧ r ∈ leading then path ++ [field]
  else path ++ [Text.ofString "kind"]

namespace Shape

/-- A node of one record only may stand there. -/
def isSole : Shape → Bool
  | record _ => true
  | orNull shape => shape.isSole
  | constant _ | anyText _ | text _ | number | integer _ | bool | oneRecord _ | list _ => false

/-- The shapes of the places in a document. -/
def isPlace : Shape → Bool
  | record r => r ∈ [document, metadata, position, span, program, block, name]
  | oneRecord records => records = statements ∨ records = expressions
  | orNull shape => shape.isPlace
  | list shape => shape.isPlace && !shape.isSole
  | constant _ | anyText _ | text _ | number | integer _ | bool => true

end Shape

namespace Json

variable {v v' old new : Json} {shape : Shape} {path : Path} {r r' : Record} {field : Field}
  {key : Text} {deleted : Bool} {records : List Record} {members others : List (Text × Json)}

/-- One value is another one but for what stands at a path. -/
inductive DiffersAt (old new : Json) : Path → Json → Json → Prop where
  | here : DiffersAt old new [] old new
  | item (before : List Json) {after : List Json} {v v' : Json} {path : Path}
    (h : DiffersAt old new path v v') : DiffersAt old new (Text.ofNat before.length :: path)
      (.array (before ++ v :: after)) (.array (before ++ v' :: after))
  | member {key : Text} {members others : List (Text × Json)} {v v' : Json} {path : Path}
    (hv : members.lookup key = some v) (h : DiffersAt old new path v v')
    (hset : SetAt key (some v') members others) :
    DiffersAt old new (key :: path) (.object members) (.object others)

/-- A node was spoiled in a field: the field was taken away, or it has a value that holds no others
and that the record of the node does not allow there. -/
inductive Spoiled (field : Field) : Bool → Json → Json → Prop where
  | deleted {members others : List (Text × Json)} (hset : SetAt field.name none members others) :
    Spoiled field true (.object members) (.object others)
  | replaced {members others : List (Text × Json)} {v : Json} (hv : v.IsScalar)
    (hfits : ¬ v.Fits field.shape) (hset : SetAt field.name (some v) members others) :
    Spoiled field false (.object members) (.object others)

theorem proper_set {x : Json} (h : (object members).Proper) (hx : x.Proper) :
    (object (set key x members)).Proper :=
  ⟨nodup_set h.1, membersProper_iff.2 (forall_mem_set (membersProper_iff.1 h.2) hx)⟩

theorem DiffersAt.not_isScalar (h : DiffersAt old new path v v') (hold : ¬ old.IsScalar) :
    ¬ v.IsScalar := by
  cases h with
  | here => exact hold
  | item => exact id
  | member => exact id

theorem setAt_set {x : Json} (members : List (Text × Json)) :
    SetAt key (some x) members (set key x members) := by
  intro k
  rw [lookup_set]
  simp only [eq_comm]

theorem setAt_erase (members : List (Text × Json)) :
    SetAt key none members (members.filter fun member => member.1 ≠ key) := by
  intro k
  induction members with
  | nil => exact (ite_self none).symm
  | cons member rest ih =>
    rw [List.filter_cons, lookup_cons]
    by_cases hmember : member.1 = key
    · have hdrop : ¬ decide (member.1 ≠ key) = true := fun h => of_decide_eq_true h hmember
      rw [if_neg hdrop, ih]
      split
      · rfl
      · next hk => rw [if_neg fun h => hk (h.symm.trans hmember)]
    · rw [if_pos (decide_eq_true hmember), lookup_cons, ih]
      by_cases hk : member.1 = k
      · rw [if_pos hk, if_pos hk, if_neg fun h => hmember (hk.trans h)]
      · rw [if_neg hk, if_neg hk]

theorem record_eq_of_fits (hr : r.isNode) (h : v.Fits (.record r)) (h' : v.Fits (.record r')) :
    r' = r := by
  have hkeys : ∀ q ∈ Record.all, Text.ofString "kind" ∈ (Record.fields q).map Field.name →
      q.isNode := by
    decide
  obtain ⟨members, rfl⟩ := fits_record h
  have hkind := (fits_object.1 h').2.1 "kind" (lookup_kind hr h ▸ rfl)
  exact record_unique (hkeys r' (mem_all r') hkind) hr h' h

/-- The path that is told in a value of some shape with a spoiled node inside. -/
def toldPath (r : Record) (key : Text) (deleted : Bool) (shape : Shape) (path : Path) : Path :=
  if shape.isSole ∧ path = [] then if deleted then [] else [key] else blamedPath r key deleted path

theorem blamedPath_nil : blamedPath r key deleted [] =
    if deleted = false ∧ r ∈ leading then [key] else [Text.ofString "kind"] := rfl

theorem blamedPath_ne_nil : blamedPath r key deleted path ≠ [] := by
  rw [blamedPath]
  split
  · split <;> exact List.append_ne_nil_of_right_ne_nil _ (List.cons_ne_nil _ _)
  · split <;> exact List.append_ne_nil_of_right_ne_nil _ (List.cons_ne_nil _ _)

theorem dropLast_kind_ne (key : Text) (h : path.getLast?.any soleKeys.contains = true) :
    path.dropLast ++ [Text.ofString "kind"] ≠ path ∧
      path.dropLast ++ [Text.ofString "kind"] ≠ path ++ [key] := by
  obtain ⟨step, hlast, hstep⟩ := (Option.any_eq_true _ _).1 h
  have hpath : path.dropLast ++ [step] = path := List.dropLast_append_getLast? _ hlast
  constructor
  · intro heq
    rw [← heq, List.getLast?_concat, Option.some.injEq] at hlast
    subst hlast
    exact absurd hstep (by decide)
  · intro heq
    have hlen := congrArg List.length heq
    have hlen' := congrArg List.length hpath
    rw [List.length_append, List.length_append, List.length_singleton, List.length_singleton]
      at hlen
    rw [List.length_append, List.length_singleton] at hlen'
    omega

/-- The node or the field is told only where the value was replaced, and no other record may stand
in the node's place or the node's record is tried first. -/
theorem blamedPath_there (hkey : key ≠ Text.ofString "kind") :
    (blamedPath r key deleted path = path ∨ blamedPath r key deleted path = path ++ [key]) ↔
      deleted = false ∧ (path.getLast?.any soleKeys.contains = true ∨ r ∈ leading) := by
  have hlonger (step : Text) : path ++ [step] ≠ path :=
    fun h => List.cons_ne_nil step [] (List.append_right_eq_self.1 h)
  have hother : path ++ [Text.ofString "kind"] ≠ path ++ [key] :=
    fun h => hkey (List.singleton_inj.1 (List.append_cancel_left h)).symm
  rw [blamedPath]
  by_cases hsole : path.getLast?.any soleKeys.contains = true
  · rw [if_pos hsole]
    cases deleted with
    | false => simp only [hsole, Bool.false_eq_true, ↓reduceIte, or_true, true_or, and_true]
    | true =>
      obtain ⟨hnode, hfield⟩ := dropLast_kind_ne key hsole
      simp only [hnode, hfield, ↓reduceIte, or_self, Bool.true_eq_false, false_and]
  · rw [if_neg hsole]
    by_cases hlead : deleted = false ∧ r ∈ leading
    · simp only [hlead, and_self, ↓reduceIte, or_true]
    · simp only [hlead, hsole, hlonger, hother, ↓reduceIte, or_self, Bool.false_eq_true, false_or]

theorem blamedPath_singleton {step : Text} (h : step ∈ soleKeys) :
    blamedPath r key deleted [step] =
      if deleted then [Text.ofString "kind"] else [step, key] :=
  if_pos (List.contains_iff_mem.2 h)

theorem blamedPath_cons {step : Text} (h : path = [] → step ∉ soleKeys) :
    blamedPath r key deleted (step :: path) = step :: blamedPath r key deleted path := by
  cases path with
  | nil =>
    have hcontains : soleKeys.contains step = false := by
      rw [← Bool.not_eq_true, List.contains_iff_mem]
      exact h rfl
    simp only [blamedPath, List.getLast?_singleton, Option.any_some, hcontains,
      List.getLast?_nil, Option.any_none, Bool.false_eq_true, if_false]
    split <;> rfl
  | cons second rest =>
    rw [blamedPath, blamedPath, List.getLast?_cons_cons, List.dropLast_cons_cons]
    split
    · split <;> rfl
    · split <;> rfl

theorem toldPath_of_not_sole (h : shape.isSole = false) :
    toldPath r key deleted shape path = blamedPath r key deleted path :=
  if_neg fun hsole => Bool.false_ne_true (h.symm.trans hsole.1)

section Spoiled

variable (hr : r.isNode) (hold : old.Fits (.record r)) (hf : field ∈ Record.fields r)
  (hkind : field.name ≠ Text.ofString "kind") (h : Spoiled field deleted old new)

include hr hold hf h

theorem Spoiled.violation?_record : ∃ fault, new.violation? Record.fields (.record r) =
    some ⟨if deleted then [] else [field.name], fault⟩ := by
  have hrequired : ∀ q ∈ Record.all, q.isNode → ∀ field ∈ Record.fields q, field.required := by
    decide
  cases h with
  | deleted hset =>
    exact ⟨_, violation?_deleted hold hf (hrequired r (mem_all r) hr field hf) hset⟩
  | replaced hv hfits hset =>
    obtain ⟨w, hw⟩ := Option.ne_none_iff_exists'.1 hfits
    have hpath := path_eq_nil_of_scalar hv hw
    refine ⟨w.fault, (violation?_changed hold hf hset hw).trans ?_⟩
    rw [Violation.under, hpath]
    rfl

include hkind

/-- In a choice a spoiled node is told to be of another kind, or to be wrong at the field if its
record comes first. -/
theorem Spoiled.violation?_choice (hc : IsChoice records) (hmem : r ∈ records) :
    ∃ fault, new.violation? Record.fields (.oneRecord records) =
      some ⟨blamedPath r field.name deleted [], fault⟩ := by
  obtain ⟨fault, hu⟩ := h.violation?_record hr hold hf
  have hshallow : new.violation? Record.fields (.oneRecord records) =
      some (if (if deleted then [] else [field.name]) ≠ [] ∧ records.head? = some r then
        ⟨if deleted then [] else [field.name], fault⟩ else otherKind) := by
    cases h with
    | deleted hset =>
      exact violation?_choice_shallow hc hmem hold hf hkind hset (fun _ => nofun) nofun hu
        (Nat.zero_le 1)
    | replaced hv hfits hset =>
      refine violation?_choice_shallow hc hmem hold hf hkind hset ?_ ?_ hu (Nat.le_refl 1)
      · rintro - y hy
        exact Option.some.inj hy ▸ hv
      · intro y hy w hw
        exact path_eq_nil_of_scalar (Option.some.inj hy ▸ hv) hw
  rw [hshallow]
  cases deleted with
  | true => exact ⟨_, rfl⟩
  | false =>
    by_cases hhead : r ∈ leading
    · have hfirst := (hc.head?_eq_some hmem).2 hhead
      have hpath : blamedPath r field.name false [] = [field.name] :=
        blamedPath_nil.trans (if_pos ⟨rfl, hhead⟩)
      rw [hpath]
      exact ⟨fault, congrArg some (if_pos ⟨List.cons_ne_nil _ _, hfirst⟩)⟩
    · have hlater := fun hfirst => hhead ((hc.head?_eq_some hmem).1 hfirst)
      have hpath : blamedPath r field.name false [] = otherKind.path :=
        blamedPath_nil.trans (if_neg fun h => hhead h.2)
      rw [hpath]
      exact ⟨_, congrArg some (if_neg fun hfirst => hlater hfirst.2)⟩

theorem Spoiled.violation?_place (hplace : shape.isPlace) (hfits : old.Fits shape) :
    ∃ fault, new.violation? Record.fields shape =
      some ⟨toldPath r field.name deleted shape [], fault⟩ := by
  obtain ⟨members, rfl⟩ := fits_record hold
  induction shape with
  | record q =>
    obtain rfl := record_eq_of_fits hr hold hfits
    exact h.violation?_record hr hold hf
  | oneRecord records =>
    have hchoice : records = statements ∨ records = expressions := of_decide_eq_true hplace
    have hc : IsChoice records := hchoice
    obtain ⟨q, hq, hone⟩ := (fits_oneRecord hc.nodup).1 hfits
    obtain rfl := record_eq_of_fits hr hold ((hone q hq).2 rfl)
    rw [toldPath_of_not_sole rfl]
    exact h.violation?_choice hr hold hf hkind hc hq
  | orNull shape ih =>
    obtain ⟨fault, hfault⟩ := ih hplace ((fits_orNull.1 hfits).resolve_left nofun)
    refine ⟨fault, (violation?_orNull ?_ shape).trans hfault⟩
    cases h <;> nofun
  | list shape =>
    obtain ⟨items, hitems, -⟩ := fits_list.1 hfits
    cases hitems
  | constant | anyText | text | number | integer | bool =>
    exact (isScalar_of_fits rfl hfits).elim

end Spoiled

theorem isPlace_of_mem (hf : field ∈ Record.fields r) : field.shape.isPlace := by
  have hplaces : ∀ r ∈ Record.all, ∀ field ∈ Record.fields r, field.shape.isPlace := by
    decide +kernel
  exact hplaces r (mem_all r) field hf

theorem isSole_of_mem_soleKeys (hf : field ∈ Record.fields r) (h : field.name ∈ soleKeys) :
    field.shape.isSole := by
  have hsole : ∀ r ∈ Record.all, ∀ field ∈ Record.fields r, field.name ∈ soleKeys →
      field.shape.isSole := by
    decide +kernel
  exact hsole r (mem_all r) field hf h

/-- The path that is told in a member leads on to the one that is told in the object, unless the
spoiled node stands there and was alone in its place. -/
theorem toldPath_of_deep (r : Record) (key : Text) (deleted : Bool) (hf : field ∈ Record.fields r')
    (hdeep : ¬ (field.shape.isSole ∧ path = [])) :
    toldPath r key deleted field.shape path = blamedPath r key deleted path ∧
      blamedPath r key deleted (field.name :: path) =
        field.name :: blamedPath r key deleted path :=
  ⟨if_neg hdeep,
    blamedPath_cons fun hpath hkey => hdeep ⟨isSole_of_mem_soleKeys hf hkey, hpath⟩⟩

theorem DiffersAt.eq_old (h : DiffersAt old new [] v v') : v = old := by
  cases h
  rfl

section Steps

variable (hr : r ∈ statements ∨ r ∈ expressions) (hold : old.Fits (.record r))

include hr hold

/-- A statement or an expression in a place of one record stands under one of few keys. -/
theorem mem_soleKeys (hf : field ∈ Record.fields r') (hsole : field.shape.isSole)
    (hfits : old.Fits field.shape) : field.name ∈ soleKeys := by
  have hkeys : ∀ q ∈ Record.all, ∀ field ∈ Record.fields q, field.shape.isSole →
      field.name ∈ soleKeys ∨ ∃ q' ∈ [metadata, position, span, program],
        field.shape = .record q' := by
    decide +kernel
  have hothers : ∀ q ∈ [metadata, position, span, program],
      ¬ (q ∈ statements ∨ q ∈ expressions) := by
    decide
  obtain h | ⟨q, hq, hshape⟩ := hkeys r' (mem_all r') field hf hsole
  · exact h
  · rw [hshape] at hfits
    obtain rfl := record_eq_of_fits (isNode_of_mem hr) hold hfits
    exact absurd hr (hothers q hq)

section Member

variable {step : Text} (hv : members.lookup step = some v) (h : DiffersAt old new path v v')
  (hset : SetAt step (some v') members others)
  (ih : ∀ shape : Shape, shape.isPlace → v.Fits shape → ∃ fault,
    v'.violation? Record.fields shape = some ⟨toldPath r key deleted shape path, fault⟩)

include hv h hset ih

theorem violation?_member_record (hplace : (Shape.record r').isPlace)
    (hfits : (object members).Fits (.record r')) :
    ∃ fault, (object others).violation? Record.fields (.record r') =
      some ⟨blamedPath r key deleted (step :: path), fault⟩ := by
  have hkeys : ∀ q ∈ [document, metadata, position, span, program, block, name],
      ∀ field ∈ Record.fields q, field.name ∉ soleKeys := by
    decide
  obtain ⟨field, hf, rfl, hfield⟩ := exists_field_of_lookup hfits hv
  obtain ⟨fault, hw⟩ := ih field.shape (isPlace_of_mem hf) hfield
  have hdeep : ¬ (field.shape.isSole ∧ path = []) := by
    rintro ⟨hsole, rfl⟩
    obtain rfl := h.eq_old
    exact hkeys r' (of_decide_eq_true hplace) field hf (mem_soleKeys hr hold hf hsole hfield)
  obtain ⟨htold, hblamed⟩ := toldPath_of_deep r key deleted hf hdeep
  refine ⟨fault, (violation?_changed hfits hf hset hw).trans ?_⟩
  rw [Violation.under, htold, hblamed]

/-- What is told in a member of a node is told in the node, unless a node that was alone in its
place lacks a field; then its parent is told to be of another kind. -/
theorem violation?_member_choice (hc : IsChoice records)
    (hfits : (object members).Fits (.oneRecord records)) :
    ∃ fault, (object others).violation? Record.fields (.oneRecord records) =
      some ⟨blamedPath r key deleted (step :: path), fault⟩ := by
  obtain ⟨q, hq, hone⟩ := (fits_oneRecord hc.nodup).1 hfits
  have hown := (hone q hq).2 rfl
  obtain ⟨field, hf, rfl, hfield⟩ := exists_field_of_lookup hown hv
  obtain ⟨fault, hw⟩ := ih field.shape (isPlace_of_mem hf) hfield
  have hv' : ¬ v.IsScalar := by
    obtain ⟨oldMembers, rfl⟩ := fits_record hold
    exact h.not_isScalar id
  have hkind : field.name ≠ Text.ofString "kind" := by
    intro hname
    rw [hname, lookup_kind (hc.isNode hq) hown] at hv
    exact hv' (Option.some.inj hv ▸ trivial)
  have hscalar : field.shape.isFlat → ∀ y ∈ some v', y.IsScalar :=
    fun hflat => absurd (isScalar_of_fits hflat hfield) hv'
  by_cases hdeep : field.shape.isSole ∧ path = []
  · obtain ⟨hsole, rfl⟩ := hdeep
    obtain rfl := h.eq_old
    have hkey := mem_soleKeys hr hold hf hsole hfield
    rw [toldPath, if_pos ⟨hsole, rfl⟩] at hw
    rw [blamedPath_singleton hkey]
    cases deleted with
    | true =>
      have hleading : ∀ q ∈ leading, ∀ field ∈ Record.fields q, field.name ∉ soleKeys := by decide
      refine ⟨_, (violation?_choice_shallow hc hq hown hf hkind hset hscalar ?_
        (violation?_changed hown hf hset hw) (Nat.le_refl 1)).trans (congrArg some (if_neg ?_))⟩
      · rintro y hy w hw'
        obtain rfl := Option.some.inj hy
        obtain rfl := Option.some.inj (hw.symm.trans hw')
        rfl
      · exact fun hfirst => hleading q ((hc.head?_eq_some hq).1 hfirst.2) field hf hkey
    | false =>
      exact ⟨fault, violation?_choice_deep hc hq hown hf hkind hset hscalar rfl hw
        (List.cons_ne_nil _ _)⟩
  · obtain ⟨htold, hblamed⟩ := toldPath_of_deep r key deleted hf hdeep
    rw [htold] at hw
    rw [hblamed]
    exact ⟨fault, violation?_choice_deep hc hq hown hf hkind hset hscalar rfl hw blamedPath_ne_nil⟩

theorem violation?_member (hplace : shape.isPlace) (hfits : (object members).Fits shape) :
    ∃ fault, (object others).violation? Record.fields shape =
      some ⟨blamedPath r key deleted (step :: path), fault⟩ := by
  induction shape with
  | record q => exact violation?_member_record hr hold hv h hset ih hplace hfits
  | oneRecord records =>
    have hchoice : records = statements ∨ records = expressions := of_decide_eq_true hplace
    exact violation?_member_choice hr hold hv h hset ih hchoice hfits
  | orNull shape ihshape =>
    obtain ⟨fault, hfault⟩ := ihshape hplace ((fits_orNull.1 hfits).resolve_left nofun)
    exact ⟨fault, hfault⟩
  | list shape =>
    obtain ⟨items, hitems, -⟩ := fits_list.1 hfits
    cases hitems
  | constant | anyText | text | number | integer | bool =>
    exact (isScalar_of_fits rfl hfits).elim

end Member

end Steps

theorem ofNat_notMem_soleKeys (n : Nat) : Text.ofNat n ∉ soleKeys := by
  have hletters : ∀ key ∈ soleKeys, key.all CodeUnit.isDigit = false := by decide
  intro h
  have hdigits := List.all_eq_true.2 (Text.ofNat_isDigit n)
  rw [hletters _ h] at hdigits
  cases hdigits

theorem violation?_array {before after : List Json}
    (ih : ∀ shape : Shape, shape.isPlace → v.Fits shape → ∃ fault,
      v'.violation? Record.fields shape = some ⟨toldPath r key deleted shape path, fault⟩)
    (hplace : shape.isPlace) (hfits : (array (before ++ v :: after)).Fits shape) :
    ∃ fault, (array (before ++ v' :: after)).violation? Record.fields shape =
      some ⟨blamedPath r key deleted (Text.ofNat before.length :: path), fault⟩ := by
  induction shape with
  | list shape =>
    obtain ⟨items, hitems, hall⟩ := fits_list.1 hfits
    obtain rfl := Json.array.inj hitems
    rw [List.forall_mem_append, List.forall_mem_cons] at hall
    obtain ⟨hbefore, hv, hafter⟩ := hall
    obtain ⟨hitem, hsole⟩ := Bool.and_eq_true_iff.1 hplace
    rw [Bool.not_eq_true'] at hsole
    obtain ⟨fault, hw⟩ := ih shape hitem hv
    refine ⟨fault, (violation?_item hbefore hafter hw).trans ?_⟩
    rw [Violation.under, toldPath_of_not_sole hsole,
      blamedPath_cons fun _ => ofNat_notMem_soleKeys before.length]
  | record q =>
    obtain ⟨members, hmembers⟩ := fits_record hfits
    cases hmembers
  | oneRecord records =>
    have hchoice : records = statements ∨ records = expressions := of_decide_eq_true hplace
    have hc : IsChoice records := hchoice
    obtain ⟨q, hq, hone⟩ := (fits_oneRecord hc.nodup).1 hfits
    obtain ⟨members, hmembers⟩ := fits_record ((hone q hq).2 rfl)
    cases hmembers
  | orNull shape ihshape =>
    obtain hnull | hinner := fits_orNull.1 hfits
    · cases hnull
    · obtain ⟨fault, hfault⟩ := ihshape hplace hinner
      exact ⟨fault, hfault⟩
  | constant | anyText | text | number | integer | bool =>
    exact (isScalar_of_fits rfl hfits).elim

/-- A value with one spoiled node is told to be wrong at the path that is blamed. -/
theorem DiffersAt.violation? (hr : r ∈ statements ∨ r ∈ expressions) (hold : old.Fits (.record r))
    (hf : field ∈ Record.fields r) (hkind : field.name ≠ Text.ofString "kind")
    (hspoiled : Spoiled field deleted old new) (h : DiffersAt old new path v v') (shape : Shape)
    (hplace : shape.isPlace) (hfits : v.Fits shape) :
    ∃ fault, v'.violation? Record.fields shape =
      some ⟨toldPath r field.name deleted shape path, fault⟩ := by
  induction h generalizing shape with
  | here => exact hspoiled.violation?_place (isNode_of_mem hr) hold hf hkind hplace hfits
  | item _ _ ih =>
    rw [toldPath, if_neg fun h => nomatch h.2]
    exact violation?_array ih hplace hfits
  | member hv h hset ih =>
    rw [toldPath, if_neg fun h => nomatch h.2]
    exact violation?_member hr hold hv h hset ih hplace hfits

end Json

section Documents

open Json

variable {p : Program} {metadata : Option (List (Text × Text))} {old new v : Json} {r : Record}
  {field : Field} {deleted : Bool} {path : Path} {violation : Violation} {t : Text}

theorem checkVersion_of_differsAt (hr : r ∈ statements ∨ r ∈ expressions)
    (hold : old.Fits (.record r)) (hm : IsMetadata metadata) (hp : p.Storable)
    (h : DiffersAt old new path (p.document metadata) v) :
    path ≠ [] ∧ ∃ members, v = .object members ∧ v.checkVersion = .ok () := by
  have hversion := p.document_version metadata
  have hdocument := (hp.conforms_document hm).fits
  generalize p.document metadata = document at h hversion hdocument
  cases h with
  | here =>
    obtain rfl := record_eq_of_fits (isNode_of_mem hr) hold hdocument
    cases isNode_of_mem hr
  | item => cases hversion
  | @member step members others w w' rest hv h hset =>
    refine ⟨List.cons_ne_nil _ _, others, rfl, checkVersion_eq_ok.2 ?_⟩
    have hstep : Text.ofString "version" ≠ step := by
      rintro rfl
      have hw : w = .text formatVersion := Option.some.inj (hv.symm.trans hversion)
      obtain ⟨oldMembers, rfl⟩ := fits_record hold
      exact h.not_isScalar id (hw ▸ trivial)
    exact (hset.other hstep).trans hversion

theorem Program.read_of_violation {members : List (Text × Json)}
    (hread : Json.read? t = some (.object members))
    (hversion : (Json.object members).checkVersion = .ok ())
    (h : (Json.object members).violation? Record.fields (.record .document) = some violation) :
    Program.read t = .error (.shape violation) ∧
      ∃ d, (DocumentError.shape violation).diagnostic? = some d ∧ d.code = .invalidTree ∧
        d.message = Text.ofString "Invalid AST JSON: " ++ violation.message := by
  have hdocument : Program.ofDocument (.object members) = .error (.shape violation) := by
    rw [Program.ofDocument, hversion]
    simp only [h]
    rfl
  refine ⟨?_, _, DocumentError.diagnostic?_of_draft rfl (List.cons_ne_nil _ _), rfl, rfl⟩
  rw [Program.read, hread]
  exact hdocument

/-- Wherever a statement or an expression in the document of a program is spoiled in one field, that
is reported at the path that is blamed, which is that of the node or the field only where the value
was replaced, and no other record may stand in the node's place or the node's record is tried
first. -/
def Program.BlamesSpoiled (p : Program) : Prop :=
  ∀ {metadata : Option (List (Text × Text))} {r : Record} {field : Field} {deleted : Bool}
    {old new v : Json} {path : Path} {t : Text}, IsMetadata metadata →
    r ∈ Record.statements ∨ r ∈ Record.expressions → old.Fits (.record r) →
    field ∈ Record.fields r → field.name ≠ Text.ofString "kind" →
    Spoiled field deleted old new → DiffersAt old new path (p.document metadata) v →
    Json.read? t = some v →
    ∃ fault d, Program.read t = .error (.shape ⟨blamedPath r field.name deleted path, fault⟩) ∧
      (DocumentError.shape ⟨blamedPath r field.name deleted path, fault⟩).diagnostic? = some d ∧
      d.code = .invalidTree ∧ d.message = Text.ofString "Invalid AST JSON: " ++
        Path.text (blamedPath r field.name deleted path) ++ Text.ofString " " ++ fault.message ∧
      ((blamedPath r field.name deleted path = path ∨
          blamedPath r field.name deleted path = path ++ [field.name]) ↔
        deleted = false ∧ (path.getLast?.any soleKeys.contains = true ∨ r ∈ leading))

theorem Program.Storable.blamesSpoiled (hp : p.Storable) : p.BlamesSpoiled := by
  intro metadata r field deleted old new v path t hm hr hold hf hkind hspoiled hdiffers hread
  obtain ⟨hpath, members, rfl, hversion⟩ := checkVersion_of_differsAt hr hold hm hp hdiffers
  obtain ⟨fault, hviolation⟩ := hdiffers.violation? hr hold hf hkind hspoiled (.record .document)
    rfl (hp.conforms_document hm).fits
  rw [toldPath, if_neg fun h => hpath h.2] at hviolation
  obtain ⟨herror, d, hd, hcode, hmessage⟩ := Program.read_of_violation hread hversion hviolation
  refine ⟨fault, d, herror, hd, hcode, hmessage.trans ?_, blamedPath_there hkind⟩
  rw [Violation.message, List.append_assoc, List.append_assoc]
  rfl

theorem exists_break : ∃ o a, (Source.ofText "break;").outcome .zero none {} ⟨"", .zero⟩ = .ok o ∧
    o.tree = some ⟨[.breakLoop a], a⟩ := by
  have hzero : Double.zero.toInt? = some ((0 : Nat) : Int) := by decide +kernel
  have hbreak : Grammar.program (.ofText "break;") ⟨0, 0⟩ =
      .ok ⟨6, 0⟩ ⟨[.breakLoop ⟨⟨1, 1, 0⟩, ⟨1, 7, 6⟩⟩], ⟨⟨1, 1, 0⟩, ⟨1, 7, 6⟩⟩⟩ := by rfl
  rw [Source.outcome, Source.parse, Source.cursor_eq_ok (Nat.zero_le _) hzero, Except.map, hbreak]
  exact ⟨_, _, rfl, rfl⟩

/-- The document of `break;` without the span of the statement. -/
theorem exists_spoiled_break {a : Span} (ha : a.Storable) : ∃ old new v : Json,
    old.Fits (.record .breakLoop) ∧ Spoiled ⟨"span", .record .span, true⟩ true old new ∧
    DiffersAt old new ["program", "statements", "0"]
      (Program.document ⟨[.breakLoop a], a⟩ none) v ∧
    Json.read? (v.write .indented) = some v := by
  have hp : Program.Storable ⟨[.breakLoop a], a⟩ := ⟨⟨ha, trivial⟩, ha⟩
  have hkind : (Json.object [(Text.ofString "kind", .text "Break")]).Proper :=
    ⟨List.nodup_singleton _, trivial, trivial⟩
  have hm : IsMetadata none := fun _ h => nomatch h
  refine ⟨_, _, _, (conforms_node rfl .nil ha).fits, .deleted (setAt_erase _),
    .member rfl (.member rfl (.item [] .here) (setAt_set _)) (setAt_set _),
    read?_write Layout.indented_isBlank _ ?_⟩
  exact proper_set (hp.conforms_document hm).proper
    (proper_set hp.conforms.proper ⟨hkind, trivial⟩)

/-- If a field other than the kind of one statement or expression in the document of a parsed
program is taken away or gets a scalar that it may not have, reading the document fails with the
path that is blamed. -/
theorem Program.spoiled_blamed {s : Source} {offset : Double} {file : Option Text} {config : Config}
    {clock : Clock} {o : Outcome} (hs : s.length < 2 ^ 53)
    (ho : s.outcome offset file config clock = .ok o) (htree : o.tree = some p) :
    p.BlamesSpoiled :=
  (s.outcome_storable hs ho htree).blamesSpoiled

theorem Program.spoiled_blamed_break : ∃ (o : Outcome) (p : Program) (old new v : Json),
    (Source.ofText "break;").outcome .zero none {} ⟨"", .zero⟩ = .ok o ∧ o.tree = some p ∧
    Spoiled ⟨"span", .record .span, true⟩ true old new ∧
    DiffersAt old new ["program", "statements", "0"] (p.document none) v ∧
    ∃ fault, Program.read (v.write .indented) =
      .error (.shape ⟨["program", "statements", "0", "kind"], fault⟩) := by
  obtain ⟨o, a, ho, htree⟩ := exists_break
  have hstorable := Source.outcome_storable (by decide) ho htree
  obtain ⟨old, new, v, hold, hspoiled, hdiffers, hread⟩ := exists_spoiled_break hstorable.2
  have hm : IsMetadata none := fun _ h => nomatch h
  obtain ⟨fault, d, herror, -⟩ := Program.spoiled_blamed (by decide) ho htree hm
    (.inl (by decide)) hold (List.mem_cons_of_mem _ List.mem_cons_self) (by decide) hspoiled
    hdiffers hread
  exact ⟨o, _, old, new, v, ho, htree, hspoiled, hdiffers, fault, herror⟩

/-- Without its span the statement of `break;` is said to be of another kind, not to lack a span. -/
theorem Program.spoiled_not_blamed_there :
    ¬ ∀ (s : Source) (offset : Double) (file : Option Text) (config : Config) (clock : Clock)
      (o : Outcome) (p : Program) (r : Record) (field : Field) (deleted : Bool) (old new v : Json)
      (path : Path) (t : Text), s.length < 2 ^ 53 →
      s.outcome offset file config clock = .ok o → o.tree = some p →
      r ∈ Record.statements ∨ r ∈ Record.expressions → old.Fits (.record r) →
      field ∈ Record.fields r → field.name ≠ Text.ofString "kind" →
      Spoiled field deleted old new → DiffersAt old new path (p.document none) v →
      Json.read? t = some v →
      ∃ violation d, Program.read t = .error (.shape violation) ∧
        (DocumentError.shape violation).diagnostic? = some d ∧ d.code = .invalidTree ∧
        (violation.path = path ∨ violation.path = path ++ [field.name]) := by
  intro h
  obtain ⟨o, a, ho, htree⟩ := exists_break
  have hstorable := Source.outcome_storable (by decide) ho htree
  obtain ⟨old, new, v, hold, hspoiled, hdiffers, hread⟩ := exists_spoiled_break hstorable.2
  have hm : IsMetadata none := fun _ h => nomatch h
  have hr : breakLoop ∈ Record.statements ∨ breakLoop ∈ Record.expressions := .inl (by decide)
  have hf : ⟨"span", .record .span, true⟩ ∈ Record.fields breakLoop :=
    List.mem_cons_of_mem _ List.mem_cons_self
  obtain ⟨violation, -, herror, -, -, hpath⟩ := h _ _ _ _ _ o _ _ _ _ _ _ _ _ _ (by decide) ho htree
    hr hold hf (by decide) hspoiled hdiffers hread
  obtain ⟨fault, -, herror', -⟩ :=
    hstorable.blamesSpoiled hm hr hold hf (by decide) hspoiled hdiffers hread
  rw [herror, Except.error.injEq, DocumentError.shape.injEq] at herror'
  have helsewhere : violation.path = ["program", "statements", "0", "kind"] := by
    rw [herror']
    rfl
  rw [helsewhere] at hpath
  revert hpath
  decide

end Documents

end BrookSyntax
