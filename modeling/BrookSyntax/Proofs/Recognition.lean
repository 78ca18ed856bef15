import BrookSyntax.Proofs.Alike
import BrookSyntax.Proofs.ImageReading

namespace BrookSyntax

namespace Json

variable {α β γ : Type} {v w u : Json} {shape : Shape} {r : Record} {kind : Text} {a : Span}
  {members others : List (Text × Json)} {fields : List Field} {ws : List Json}

/-- The members that give values to fields. -/
def named (fields : List Field) (values : List Json) : List (Text × Json) :=
  List.zipWith (fun field v => (field.name, v)) fields values

theorem reading_congr (h : ∀ key, members.lookup key = others.lookup key) :
    (object members).reading = (object others).reading := by
  have hread (key : Text) : (foldMembers Reading.ofLayer members).lookup key =
      (foldMembers Reading.ofLayer others).lookup key := by
    rw [lookup_foldMembers, lookup_foldMembers, h]
  have hlayer (members : List (Text × Json)) : (object members).reading =
      Reading.ofLayer (.object (foldMembers Reading.ofLayer members)) := rfl
  simp only [hlayer, Reading.ofLayer, Reading.positionOf, Reading.spanOf, Reading.nameOf,
    Reading.exprOf, Reading.blockOf, Reading.stmtOf, Reading.programOf, Reading.nodeSpan,
    Reading.get, hread]

theorem exists_record {records : List Record} (hnodup : records.Nodup)
    (h : v.Fits (.oneRecord records)) : ∃ r ∈ records, v.Fits (.record r) := by
  obtain ⟨r, hmem, hr⟩ := (fits_oneRecord hnodup).1 h
  exact ⟨r, hmem, (hr r hmem).2 rfl⟩

theorem isNull_of_fits_record (h : v.Fits (.record r)) : v.reading.isNull = false := by
  obtain ⟨members, rfl⟩ := fits_record h
  rfl

theorem lookup_named (h : List.Forall₂ (fun w f => members.lookup f.name = some w) ws fields)
    (key : Text) : (named fields ws).lookup key =
      if key ∈ fields.map Field.name then members.lookup key else none := by
  induction h with
  | nil => rfl
  | @cons w field ws fields hw _ ih =>
    rw [named, List.zipWith_cons_cons, lookup_cons, ← named, ih, List.map_cons]
    split
    · next hk =>
      subst hk
      rw [hw, if_pos List.mem_cons_self]
    · next hk => simp only [List.mem_cons, Ne.symm hk, false_or]

/-- An object that has the shape of a record has the values of its fields under their names and
nothing else. -/
theorem fits_fields (h : v.Fits (.record r)) (hr : ∀ field ∈ Record.fields r, field.required) :
    ∃ members ws, v = object members ∧
      (∀ key, members.lookup key = (named (Record.fields r) ws).lookup key) ∧
      List.Forall₂ (fun w f => w.Fits f.shape ∧ sizeOf w < sizeOf v) ws (Record.fields r) := by
  obtain ⟨members, rfl⟩ := fits_record h
  obtain ⟨hrequired, hkeys, hfits⟩ := fits_object.1 h
  have hvalues : ∀ fields ⊆ Record.fields r, ∃ ws, List.Forall₂ (fun w f =>
      members.lookup f.name = some w ∧ w.Fits f.shape ∧ sizeOf w < sizeOf (object members)) ws
        fields := by
    intro fields hsub
    induction fields with
    | nil => exact ⟨[], .nil⟩
    | cons field rest ih =>
      rw [List.cons_subset] at hsub
      obtain ⟨ws, hws⟩ := ih hsub.2
      obtain ⟨w, hw⟩ := Option.isSome_iff_exists.1 (hrequired field hsub.1 (hr field hsub.1))
      have hlt := sizeOf_lt_of_member (mem_of_lookup hw)
      exact ⟨w :: ws, .cons ⟨hw, hfits field hsub.1 w hw, hlt⟩ hws⟩
  obtain ⟨ws, hws⟩ := hvalues _ (List.Subset.refl _)
  refine ⟨members, ws, rfl, fun key => ?_, hws.imp fun _ _ h => h.2⟩
  rw [lookup_named (hws.imp fun _ _ h => h.1)]
  split
  · rfl
  · next hnot => exact Option.not_isSome_iff_eq_none.1 (mt (hkeys key) hnot)

/-- The value is read as something of which it is the image, and it is the image of something that
can be stored. -/
structure IsImage (read : Reading → Option α) (image : α → Json) (Storable : α → Prop) (v : Json) :
    Prop where
  read : ∃ a, read v.reading = some a ∧ v.Alike (image a)
  stored : ∃ a, Storable a ∧ v.Alike (image a)

section Images

variable {read : Reading → Option α} {image : α → Json} {P : α → Prop}
  {read' : Reading → Option β} {image' : β → Json} {P' : β → Prop}

theorem IsImage.of (a : α) (hread : read v.reading = some a) (hstored : P a)
    (h : v.Alike (image a)) : v.IsImage read image P :=
  ⟨⟨a, hread, h⟩, ⟨a, hstored, h⟩⟩

theorem IsImage.map (h : u.IsImage read image P) (f : α → β)
    (hread : ∀ a, read u.reading = some a → read' v.reading = some (f a))
    (hstored : ∀ a, P a → P' (f a))
    (halike : ∀ a, u.Alike (image a) → v.Alike (image' (f a))) : v.IsImage read' image' P' := by
  obtain ⟨⟨a, ha, hva⟩, ⟨b, hb, hvb⟩⟩ := h
  exact ⟨⟨f a, hread a ha, halike a hva⟩, ⟨f b, hstored b hb, halike b hvb⟩⟩

theorem IsImage.map₂ {read'' : Reading → Option γ} {image'' : γ → Json} {P'' : γ → Prop}
    (h : u.IsImage read image P) (h' : w.IsImage read' image' P') (f : α → β → γ)
    (hread : ∀ a b, read u.reading = some a → read' w.reading = some b →
      read'' v.reading = some (f a b))
    (hstored : ∀ a b, P a → P' b → P'' (f a b))
    (halike : ∀ a b, u.Alike (image a) → w.Alike (image' b) → v.Alike (image'' (f a b))) :
    v.IsImage read'' image'' P'' := by
  obtain ⟨⟨a, ha, hva⟩, ⟨a', ha', hva'⟩⟩ := h
  obtain ⟨⟨b, hb, hvb⟩, ⟨b', hb', hvb'⟩⟩ := h'
  exact ⟨⟨f a b, hread a b ha hb, halike a b hva hvb⟩,
    ⟨f a' b', hstored a' b' ha' hb', halike a' b' hva' hvb'⟩⟩

theorem IsImage.orNull {image' : Option α → Json} {P' : Option α → Prop}
    (h : v = .null ∨ v.reading.isNull = false ∧ v.IsImage read image P)
    (hnone : image' none = .null) (hsome : ∀ a, image' (some a) = image a) (hP : P' none)
    (hP' : ∀ a, P a → P' (some a)) : v.IsImage (Reading.orNull read) image' P' := by
  obtain rfl | ⟨hnull, h⟩ := h
  · exact .of none rfl hP (hnone ▸ .null)
  · refine h.map some (fun a ha => ?_) hP' fun a ha => (hsome a).symm ▸ ha
    rw [Reading.orNull, hnull, ha]
    rfl

theorem IsImage.list {items : List Json} (h : ∀ item ∈ items, item.IsImage read image P) :
    (∃ as : List α, (items.map reading).mapM read = some as ∧
      List.Forall₂ Alike items (as.map image)) ∧
      ∃ as : List α, (∀ a ∈ as, P a) ∧ List.Forall₂ Alike items (as.map image) := by
  induction items with
  | nil => exact ⟨⟨[], rfl, .nil⟩, ⟨[], nofun, .nil⟩⟩
  | cons item rest ih =>
    rw [List.forall_mem_cons] at h
    obtain ⟨⟨a, ha, hva⟩, ⟨b, hb, hvb⟩⟩ := h.1
    obtain ⟨⟨as, has, hvas⟩, ⟨bs, hbs, hvbs⟩⟩ := ih h.2
    exact ⟨⟨a :: as, mapM_cons_of_some ha has, .cons hva hvas⟩,
      ⟨b :: bs, List.forall_mem_cons.2 ⟨hb, hbs⟩, .cons hvb hvbs⟩⟩

end Images

/-- A value that is a node of a kind, with values of the node's own fields, and has a span. -/
structure IsNode (kind : Text) (fields : List Field) (ws : List Json) (a : Span) (v : Json) :
    Prop where
  reading : ∃ w, w.reading.span? = some a ∧
    v.reading = (object ((Text.ofString "kind", .text kind) :: named fields ws ++
      [(Text.ofString "span", w)])).reading
  alike : ∀ others,
    List.Forall₂ (fun m n => m.1 = n.1 ∧ m.2.Alike n.2) (named fields ws) others →
      v.Alike (Json.node kind others a)
  span : a.Storable

end Json

open Json

section Places

variable {v : Json}

theorem fits_nat {least : Int} (hleast : 0 ≤ least) (h : v.Fits (.integer least)) :
    ∃ n : Nat, least ≤ n ∧ v.reading.nat? = some n ∧ Binary64.Represents n ∧
      v.Alike (.number (.ofNat n)) := by
  obtain ⟨x, i, rfl, hi, hle⟩ := fits_integer.1 h
  obtain ⟨n, rfl⟩ := Int.eq_ofNat_of_zero_le (Int.le_trans hleast hle)
  obtain ⟨hfinite, hsigned⟩ := Binary64.ofNat_of_toInt? hi
  exact ⟨n, hle, nat?_reading hi, Binary64.represents_of_toInt? hi,
    .number (Binary64.toInt?_eq_some.1 hi).1 hfinite hsigned.symm⟩

theorem fits_position (h : v.Fits (.record .position)) :
    ∃ p : Position, v.reading.position? = some p ∧ p.Storable ∧ v.Alike p.toJson := by
  obtain ⟨members, ws, rfl, hsame, hws⟩ := fits_fields h (by decide)
  obtain _ | ⟨⟨hline, -⟩, _ | ⟨⟨hcol, -⟩, _ | ⟨⟨hoffset, -⟩, _ | _⟩⟩⟩ := hws
  obtain ⟨line, hline, hline', hline'', haline⟩ := fits_nat (by decide) hline
  obtain ⟨col, hcol, hcol', hcol'', hacol⟩ := fits_nat (by decide) hcol
  obtain ⟨offset, -, hoffset', hoffset'', haoffset⟩ := fits_nat (by decide) hoffset
  refine ⟨⟨line, col, offset⟩, ?_, ⟨Int.ofNat_le.1 hline, Int.ofNat_le.1 hcol, hline'', hcol'',
    hoffset''⟩, ?_⟩
  · rw [reading_congr hsame]
    exact position?_of hline' hcol' hoffset'
  · exact .of_lookup hsame (alike_object
      (.cons ⟨rfl, haline⟩ (.cons ⟨rfl, hacol⟩ (.cons ⟨rfl, haoffset⟩ .nil))))

theorem fits_span (h : v.Fits (.record .span)) :
    ∃ a : Span, v.reading.span? = some a ∧ a.Storable ∧ v.Alike a.toJson := by
  obtain ⟨members, ws, rfl, hsame, hws⟩ := fits_fields h (by decide)
  obtain _ | ⟨⟨hstart, -⟩, _ | ⟨⟨hstop, -⟩, _ | _⟩⟩ := hws
  obtain ⟨start, hstart, hstart', hastart⟩ := fits_position hstart
  obtain ⟨stop, hstop, hstop', hastop⟩ := fits_position hstop
  refine ⟨⟨start, stop⟩, ?_, ⟨hstart', hstop'⟩, ?_⟩
  · rw [reading_congr hsame]
    exact span?_of hstart hstop
  · exact .of_lookup hsame (alike_object (.cons ⟨rfl, hastart⟩ (.cons ⟨rfl, hastop⟩ .nil)))

end Places

theorem forall₂_concat {α β : Type} {R : α → β → Prop} {as : List α} {bs : List β} {b : β}
    (h : List.Forall₂ R as (bs ++ [b])) :
    ∃ as' a, as = as' ++ [a] ∧ List.Forall₂ R as' bs ∧ R a b := by
  induction bs generalizing as with
  | nil =>
    obtain _ | ⟨ha, _ | _⟩ := h
    exact ⟨[], _, rfl, .nil, ha⟩
  | cons b' bs ih =>
    obtain _ | ⟨ha, h⟩ := h
    obtain ⟨as', a, rfl, hs, hab⟩ := ih h
    exact ⟨_ :: as', a, rfl, .cons ha hs, hab⟩

section Nodes

variable {v : Json} {r : Record} {kind : Text} {fields : List Field}

/-- A value of the shape of a record of nodes is a node, and the values of its own fields have their
shapes. -/
theorem fits_node (hr : Record.fields r = Record.nodeFields kind fields)
    (hrequired : ∀ field ∈ fields, field.required) (h : v.Fits (.record r)) :
    ∃ ws a, v.IsNode kind fields ws a ∧
      List.Forall₂ (fun w f => w.Fits f.shape ∧ sizeOf w < sizeOf v) ws fields := by
  obtain ⟨members, ws, rfl, hsame, hws⟩ := fits_fields h (by
    rw [hr, Record.nodeFields, List.forall_mem_append, List.forall_mem_cons,
      List.forall_mem_singleton]
    exact ⟨⟨rfl, hrequired⟩, rfl⟩)
  rw [hr, Record.nodeFields] at hsame hws
  obtain _ | ⟨⟨hkind, -⟩, hws⟩ := hws
  obtain rfl := fits_constant.1 hkind
  obtain ⟨ws, w, rfl, hws, hspan, -⟩ := forall₂_concat hws
  obtain ⟨a, ha, ha', haa⟩ := fits_span hspan
  have hnamed : named ({ name := "kind", shape := .constant kind } :: fields ++
      [{ name := "span", shape := .record .span }]) (.text kind :: (ws ++ [w])) =
      (Text.ofString "kind", .text kind) :: named fields ws ++ [(Text.ofString "span", w)] := by
    rw [named, List.cons_append, List.zipWith_cons_cons, List.zipWith_append hws.length_eq.symm]
    rfl
  rw [hnamed] at hsame
  refine ⟨ws, a, ⟨⟨w, ha, reading_congr hsame⟩, fun others hothers => ?_, ha'⟩, hws⟩
  exact .of_lookup hsame (alike_object
    (.cons ⟨rfl, .text kind⟩ (List.rel_append hothers (.cons ⟨rfl, haa⟩ .nil))))

theorem fits_name (h : v.Fits (.record .name)) :
    ∃ name : Name, v.reading.name? = some name ∧ name.Storable ∧ v.Alike name.toJson ∧
      v.reading.expr? = some (.name name) := by
  obtain ⟨ws, a, hnode, hws⟩ := fits_node rfl (by decide) h
  obtain _ | ⟨⟨htext, -⟩, _ | _⟩ := hws
  obtain ⟨t, rfl, ht⟩ := fits_text.1 htext
  obtain ⟨w, hw, hreading⟩ := hnode.reading
  have halike : v.Alike (Name.toJson ⟨t, a⟩) := hnode.alike _ (.cons ⟨rfl, .text t⟩ .nil)
  refine ⟨⟨t, a⟩, ?_, ⟨List.length_pos_iff.1 ht, hnode.span⟩, halike, ?_⟩
  · rw [hreading]
    exact name?_of hw
  · rw [hreading]
    exact expr?_name t hw

/-- The value is the image of an expression. -/
def Json.IsExpr (v : Json) : Prop := v.IsImage Reading.expr? Expr.toJson Expr.Storable

/-- The value is the image of a list of expressions. -/
def Json.IsExprs (v : Json) : Prop :=
  v.IsImage Reading.exprs? (fun es => .array (Expr.allToJson es)) Expr.AllStorable

theorem Expr.allToJson_eq_map (es : List Expr) : Expr.allToJson es = es.map Expr.toJson := by
  induction es with
  | nil => rfl
  | cons e rest ih => rw [Expr.allToJson, ih, List.map_cons]

theorem Expr.allStorable_iff {es : List Expr} :
    Expr.AllStorable es ↔ ∀ e ∈ es, e.Storable := by
  induction es with
  | nil => exact ⟨fun _ => nofun, fun _ => trivial⟩
  | cons e rest ih =>
    rw [List.forall_mem_cons, ← ih]
    exact Iff.rfl

theorem isExprs_array {items : List Json} (h : ∀ item ∈ items, item.IsExpr) :
    (Json.array items).IsExprs := by
  obtain ⟨⟨es, hread, halike⟩, ⟨es', hstored, halike'⟩⟩ := IsImage.list h
  rw [← Expr.allToJson_eq_map] at halike halike'
  exact ⟨⟨es, exprs?_array hread, alike_array halike⟩,
    ⟨es', Expr.allStorable_iff.2 hstored, alike_array halike'⟩⟩

theorem isExpr_number (h : v.Fits (.record .number)) : v.IsExpr := by
  obtain ⟨ws, a, hnode, hws⟩ := fits_node rfl (by decide) h
  obtain _ | ⟨⟨hnumber, -⟩, _ | _⟩ := hws
  obtain ⟨x, rfl, hx⟩ := fits_number.1 hnumber
  obtain ⟨w, hw, hreading⟩ := hnode.reading
  have hread : v.reading.expr? = some (.number x a) := by
    rw [hreading]
    exact expr?_number x hw
  have halike {y : Binary64} (hy : y.isFinite) (hxy : x.signed = y.signed) :
      v.Alike (Expr.number y a).toJson :=
    hnode.alike _ (.cons ⟨rfl, .number hx hy hxy⟩ .nil)
  refine ⟨⟨_, hread, halike hx rfl⟩, ?_⟩
  by_cases hzero : x.isZero = true
  · have hsigned := Binary64.signed_of_isZero hzero
    exact ⟨.number .zero a, ⟨⟨rfl, fun _ => rfl⟩, hnode.span⟩, halike rfl hsigned⟩
  · exact ⟨.number x a, ⟨⟨hx, fun h => absurd h hzero⟩, hnode.span⟩, halike hx rfl⟩

theorem isExpr_string (h : v.Fits (.record .string)) : v.IsExpr := by
  obtain ⟨ws, a, hnode, hws⟩ := fits_node rfl (by decide) h
  obtain _ | ⟨⟨htext, -⟩, _ | _⟩ := hws
  obtain ⟨t, rfl, -⟩ := fits_text.1 htext
  obtain ⟨w, hw, hreading⟩ := hnode.reading
  refine .of (.string t a) ?_ hnode.span (hnode.alike _ (.cons ⟨rfl, .text t⟩ .nil))
  rw [hreading]
  exact expr?_string t hw

theorem isExpr_bool (h : v.Fits (.record .bool)) : v.IsExpr := by
  obtain ⟨ws, a, hnode, hws⟩ := fits_node rfl (by decide) h
  obtain _ | ⟨⟨hbool, -⟩, _ | _⟩ := hws
  obtain ⟨b, rfl⟩ := fits_bool.1 hbool
  obtain ⟨w, hw, hreading⟩ := hnode.reading
  refine .of (.bool b a) ?_ hnode.span (hnode.alike _ (.cons ⟨rfl, .bool b⟩ .nil))
  rw [hreading]
  exact expr?_bool b hw

theorem isExpr_null (h : v.Fits (.record .null)) : v.IsExpr := by
  obtain ⟨ws, a, hnode, hws⟩ := fits_node rfl (by decide) h
  obtain _ | _ := hws
  obtain ⟨w, hw, hreading⟩ := hnode.reading
  refine .of (.null a) ?_ hnode.span (hnode.alike _ .nil)
  rw [hreading]
  exact expr?_null hw

theorem isExpr_name (h : v.Fits (.record .name)) : v.IsExpr := by
  obtain ⟨name, -, hstored, halike, hread⟩ := fits_name h
  exact .of (.name name) hread hstored halike

/-- The expressions smaller than a value are images. -/
def Json.SmallerExprs (v : Json) : Prop :=
  ∀ w : Json, sizeOf w < sizeOf v → w.Fits .expression → w.IsExpr

theorem isExpr_unary (ih : v.SmallerExprs) (h : v.Fits (.record .unary)) : v.IsExpr := by
  obtain ⟨ws, a, hnode, hws⟩ := fits_node rfl (by decide) h
  obtain _ | ⟨⟨hop, -⟩, _ | ⟨⟨hoperand, hlt⟩, _ | _⟩⟩ := hws
  obtain ⟨t, ht, rfl⟩ := fits_anyText.1 hop
  obtain ⟨op, -, rfl⟩ := List.mem_map.1 ht
  obtain ⟨w, hw, hreading⟩ := hnode.reading
  refine (ih _ hlt hoperand).map (.unary op · a) (fun e he => ?_) (fun e he => ⟨he, hnode.span⟩)
    fun e he => hnode.alike _ (.cons ⟨rfl, .text _⟩ (.cons ⟨rfl, he⟩ .nil))
  rw [hreading]
  exact expr?_unary he hw

theorem isExpr_binary (ih : v.SmallerExprs) (h : v.Fits (.record .binary)) : v.IsExpr := by
  obtain ⟨ws, a, hnode, hws⟩ := fits_node rfl (by decide) h
  obtain _ | ⟨⟨hop, -⟩, _ | ⟨⟨hleft, hlt⟩, _ | ⟨⟨hright, hlt'⟩, _ | _⟩⟩⟩ := hws
  obtain ⟨t, ht, rfl⟩ := fits_anyText.1 hop
  obtain ⟨op, -, rfl⟩ := List.mem_map.1 ht
  obtain ⟨w, hw, hreading⟩ := hnode.reading
  refine (ih _ hlt hleft).map₂ (ih _ hlt' hright) (.binary op · · a) (fun e e' he he' => ?_)
    (fun e e' he he' => ⟨he, he', hnode.span⟩) fun e e' he he' =>
      hnode.alike _ (.cons ⟨rfl, .text _⟩ (.cons ⟨rfl, he⟩ (.cons ⟨rfl, he'⟩ .nil)))
  rw [hreading]
  exact expr?_binary he he' hw

theorem isExpr_assign (ih : v.SmallerExprs) (h : v.Fits (.record .assign)) : v.IsExpr := by
  obtain ⟨ws, a, hnode, hws⟩ := fits_node rfl (by decide) h
  obtain _ | ⟨⟨htarget, -⟩, _ | ⟨⟨hvalue, hlt⟩, _ | _⟩⟩ := hws
  obtain ⟨target, ht, htarget, hatarget, -⟩ := fits_name htarget
  obtain ⟨w, hw, hreading⟩ := hnode.reading
  refine (ih _ hlt hvalue).map (.assign target · a) (fun e he => ?_)
    (fun e he => ⟨htarget, he, hnode.span⟩)
    fun e he => hnode.alike _ (.cons ⟨rfl, hatarget⟩ (.cons ⟨rfl, he⟩ .nil))
  rw [hreading]
  exact expr?_assign ht he hw

theorem isExpr_call (ih : v.SmallerExprs) (h : v.Fits (.record .call)) : v.IsExpr := by
  obtain ⟨ws, a, hnode, hws⟩ := fits_node rfl (by decide) h
  obtain _ | ⟨⟨hcallee, hlt⟩, _ | ⟨⟨hargs, hlt'⟩, _ | _⟩⟩ := hws
  obtain ⟨items, rfl, hitems⟩ := fits_list.1 hargs
  obtain ⟨w, hw, hreading⟩ := hnode.reading
  have hlist := isExprs_array fun item hitem =>
    ih item (Nat.lt_trans (sizeOf_lt_of_item hitem) hlt') (hitems item hitem)
  refine (ih _ hlt hcallee).map₂ hlist (.call · · a) (fun e es he hes => ?_)
    (fun e es he hes => ⟨he, hes, hnode.span⟩) fun e es he hes =>
      hnode.alike _ (.cons ⟨rfl, he⟩ (.cons ⟨rfl, hes⟩ .nil))
  rw [hreading]
  exact expr?_call he hes hw

/-- Every value of the shape of an expression is the image of one. -/
theorem isExpr_of_fits (v : Json) (h : v.Fits .expression) : v.IsExpr := by
  have ih : v.SmallerExprs := fun w hlt hw => isExpr_of_fits w hw
  obtain ⟨r, hmem, hfits⟩ := exists_record (by decide) h
  simp only [Record.expressions, List.mem_cons, List.not_mem_nil, or_false] at hmem
  obtain rfl | rfl | rfl | rfl | rfl | rfl | rfl | rfl | rfl := hmem
  · exact isExpr_number hfits
  · exact isExpr_string hfits
  · exact isExpr_bool hfits
  · exact isExpr_null hfits
  · exact isExpr_name hfits
  · exact isExpr_unary ih hfits
  · exact isExpr_binary ih hfits
  · exact isExpr_assign ih hfits
  · exact isExpr_call ih hfits
termination_by sizeOf v

theorem isImage_optionExpr (h : v.Fits (.orNull .expression)) :
    v.IsImage (Reading.orNull Reading.expr?) Expr.optionToJson (·.elim True Expr.Storable) := by
  refine IsImage.orNull ?_ rfl (fun _ => rfl) trivial fun _ => id
  refine (fits_orNull.1 h).imp_right fun h => ?_
  obtain ⟨r, -, hr⟩ := exists_record (by decide) h
  exact ⟨isNull_of_fits_record hr, isExpr_of_fits v h⟩

/-- The value is the image of a block. -/
def Json.IsBlock (v : Json) : Prop := v.IsImage Reading.block? Block.toJson Block.Storable

/-- The value is the image of a statement. -/
def Json.IsStmt (v : Json) : Prop := v.IsImage Reading.stmt? Stmt.toJson Stmt.Storable

/-- The value is the image of a list of statements. -/
def Json.IsStmts (v : Json) : Prop :=
  v.IsImage Reading.stmts? (fun stmts => .array (Stmt.allToJson stmts)) Stmt.AllStorable

theorem Stmt.allToJson_eq_map (stmts : List Stmt) :
    Stmt.allToJson stmts = stmts.map Stmt.toJson := by
  induction stmts with
  | nil => rfl
  | cons st rest ih => rw [Stmt.allToJson, ih, List.map_cons]

theorem Stmt.allStorable_iff {stmts : List Stmt} :
    Stmt.AllStorable stmts ↔ ∀ st ∈ stmts, st.Storable := by
  induction stmts with
  | nil => exact ⟨fun _ => nofun, fun _ => trivial⟩
  | cons st rest ih =>
    rw [List.forall_mem_cons, ← ih]
    exact Iff.rfl

/-- The statements and blocks smaller than a value are images. -/
structure Json.SmallerStmts (v : Json) : Prop where
  stmt : ∀ w : Json, sizeOf w < sizeOf v → w.Fits .statement → w.IsStmt
  block : ∀ w : Json, sizeOf w < sizeOf v → w.Fits (.record .block) → w.IsBlock

theorem isStmts_of_fits {u : Json} (ih : v.SmallerStmts) (hlt : sizeOf u < sizeOf v)
    (h : u.Fits (.list .statement)) : u.IsStmts := by
  obtain ⟨items, rfl, hitems⟩ := fits_list.1 h
  have himages (item : Json) (hitem : item ∈ items) : item.IsStmt :=
    ih.stmt item (Nat.lt_trans (sizeOf_lt_of_item hitem) hlt) (hitems item hitem)
  obtain ⟨⟨stmts, hread, halike⟩, ⟨stmts', hstored, halike'⟩⟩ := IsImage.list himages
  rw [← Stmt.allToJson_eq_map] at halike halike'
  exact ⟨⟨stmts, stmts?_array hread, alike_array halike⟩,
    ⟨stmts', Stmt.allStorable_iff.2 hstored, alike_array halike'⟩⟩

theorem isBlock_of_smaller (ih : v.SmallerStmts) (h : v.Fits (.record .block)) : v.IsBlock := by
  obtain ⟨ws, a, hnode, hws⟩ := fits_node rfl (by decide) h
  obtain _ | ⟨⟨hstmts, hlt⟩, _ | _⟩ := hws
  obtain ⟨w, hw, hreading⟩ := hnode.reading
  refine (isStmts_of_fits ih hlt hstmts).map (.mk · a) (fun stmts hs => ?_)
    (fun stmts hs => ⟨hs, hnode.span⟩) fun stmts hs => hnode.alike _ (.cons ⟨rfl, hs⟩ .nil)
  rw [hreading]
  exact block?_of hs hw

theorem isImage_optionBlock {u : Json} (ih : v.SmallerStmts) (hlt : sizeOf u < sizeOf v)
    (h : u.Fits (.orNull (.record .block))) :
    u.IsImage (Reading.orNull Reading.block?) Block.optionToJson Block.OptionStorable := by
  refine IsImage.orNull ?_ rfl (fun _ => rfl) trivial fun _ => id
  exact (fits_orNull.1 h).imp_right fun h => ⟨isNull_of_fits_record h, ih.block u hlt h⟩

theorem isStmt_block (ih : v.SmallerStmts) (h : v.Fits (.record .block)) : v.IsStmt := by
  obtain ⟨ws, a, hnode, hws⟩ := fits_node rfl (by decide) h
  obtain _ | ⟨⟨hstmts, hlt⟩, _ | _⟩ := hws
  obtain ⟨w, hw, hreading⟩ := hnode.reading
  refine (isStmts_of_fits ih hlt hstmts).map (fun stmts => .block (.mk stmts a))
    (fun stmts hs => ?_) (fun stmts hs => ⟨hs, hnode.span⟩)
    fun stmts hs => hnode.alike _ (.cons ⟨rfl, hs⟩ .nil)
  rw [hreading]
  exact stmt?_block hs hw

theorem isStmt_conditional (ih : v.SmallerStmts) (h : v.Fits (.record .conditional)) :
    v.IsStmt := by
  obtain ⟨ws, a, hnode, hws⟩ := fits_node rfl (by decide) h
  obtain _ | ⟨⟨hcondition, -⟩, _ | ⟨⟨hthen, hlt⟩, _ | ⟨⟨helse, hlt'⟩, _ | _⟩⟩⟩ := hws
  obtain ⟨w, hw, hreading⟩ := hnode.reading
  obtain ⟨⟨e, he, hae⟩, ⟨e', he', hae'⟩⟩ := isExpr_of_fits _ hcondition
  obtain ⟨⟨body, hb, hab⟩, ⟨body', hb', hab'⟩⟩ := ih.block _ hlt hthen
  obtain ⟨⟨other, ho, hao⟩, ⟨other', ho', hao'⟩⟩ := isImage_optionBlock ih hlt' helse
  refine ⟨⟨.conditional e body other a, ?_, hnode.alike _
      (.cons ⟨rfl, hae⟩ (.cons ⟨rfl, hab⟩ (.cons ⟨rfl, hao⟩ .nil)))⟩,
    ⟨.conditional e' body' other' a, ⟨he', hb', ho', hnode.span⟩, hnode.alike _
      (.cons ⟨rfl, hae'⟩ (.cons ⟨rfl, hab'⟩ (.cons ⟨rfl, hao'⟩ .nil)))⟩⟩
  rw [hreading]
  exact stmt?_conditional he hb ho hw

theorem isStmt_whileLoop (ih : v.SmallerStmts) (h : v.Fits (.record .whileLoop)) : v.IsStmt := by
  obtain ⟨ws, a, hnode, hws⟩ := fits_node rfl (by decide) h
  obtain _ | ⟨⟨hcondition, -⟩, _ | ⟨⟨hbody, hlt⟩, _ | _⟩⟩ := hws
  obtain ⟨w, hw, hreading⟩ := hnode.reading
  refine (isExpr_of_fits _ hcondition).map₂ (ih.block _ hlt hbody) (.whileLoop · · a)
    (fun e body he hb => ?_) (fun e body he hb => ⟨he, hb, hnode.span⟩)
    fun e body he hb => hnode.alike _ (.cons ⟨rfl, he⟩ (.cons ⟨rfl, hb⟩ .nil))
  rw [hreading]
  exact stmt?_whileLoop he hb hw

theorem isStmt_loop (ih : v.SmallerStmts) (h : v.Fits (.record .loop)) : v.IsStmt := by
  obtain ⟨ws, a, hnode, hws⟩ := fits_node rfl (by decide) h
  obtain _ | ⟨⟨hbody, hlt⟩, _ | _⟩ := hws
  obtain ⟨w, hw, hreading⟩ := hnode.reading
  refine (ih.block _ hlt hbody).map (.loop · a) (fun body hb => ?_)
    (fun body hb => ⟨hb, hnode.span⟩) fun body hb => hnode.alike _ (.cons ⟨rfl, hb⟩ .nil)
  rw [hreading]
  exact stmt?_loop hb hw

theorem isStmt_breakLoop (h : v.Fits (.record .breakLoop)) : v.IsStmt := by
  obtain ⟨ws, a, hnode, hws⟩ := fits_node rfl (by decide) h
  obtain _ | _ := hws
  obtain ⟨w, hw, hreading⟩ := hnode.reading
  refine .of (.breakLoop a) ?_ hnode.span (hnode.alike _ .nil)
  rw [hreading]
  exact stmt?_breakLoop hw

theorem isStmt_continueLoop (h : v.Fits (.record .continueLoop)) : v.IsStmt := by
  obtain ⟨ws, a, hnode, hws⟩ := fits_node rfl (by decide) h
  obtain _ | _ := hws
  obtain ⟨w, hw, hreading⟩ := hnode.reading
  refine .of (.continueLoop a) ?_ hnode.span (hnode.alike _ .nil)
  rw [hreading]
  exact stmt?_continueLoop hw

theorem isStmt_returnValue (h : v.Fits (.record .returnValue)) : v.IsStmt := by
  obtain ⟨ws, a, hnode, hws⟩ := fits_node rfl (by decide) h
  obtain _ | ⟨⟨hvalue, -⟩, _ | _⟩ := hws
  obtain ⟨w, hw, hreading⟩ := hnode.reading
  refine (isImage_optionExpr hvalue).map (.returnValue · a) (fun e he => ?_)
    (fun e he => ⟨he, hnode.span⟩) fun e he => hnode.alike _ (.cons ⟨rfl, he⟩ .nil)
  rw [hreading]
  exact stmt?_returnValue he hw

theorem isStmt_binding (h : v.Fits (.record .binding)) : v.IsStmt := by
  obtain ⟨ws, a, hnode, hws⟩ := fits_node rfl (by decide) h
  obtain _ | ⟨⟨hname, -⟩, _ | ⟨⟨hmutable, -⟩, _ | ⟨⟨hinit, -⟩, _ | _⟩⟩⟩ := hws
  obtain ⟨t, rfl, ht⟩ := fits_text.1 hname
  obtain ⟨b, rfl⟩ := fits_bool.1 hmutable
  obtain ⟨w, hw, hreading⟩ := hnode.reading
  refine (isImage_optionExpr hinit).map (.binding t b · a) (fun e he => ?_)
    (fun e he => ⟨List.length_pos_iff.1 ht, he, hnode.span⟩)
    fun e he => hnode.alike _ (.cons ⟨rfl, .text t⟩ (.cons ⟨rfl, .bool b⟩ (.cons ⟨rfl, he⟩ .nil)))
  rw [hreading]
  exact stmt?_binding he hw

theorem fits_params (h : v.Fits (.list (.text 1))) :
    ∃ params : List Text, v = .array (params.map .text) ∧ ∀ param ∈ params, param ≠ [] := by
  obtain ⟨items, rfl, hitems⟩ := fits_list.1 h
  clear h
  induction items with
  | nil => exact ⟨[], rfl, nofun⟩
  | cons item rest ih =>
    rw [List.forall_mem_cons] at hitems
    obtain ⟨params, hparams, hne⟩ := ih hitems.2
    obtain ⟨t, rfl, ht⟩ := fits_text.1 hitems.1
    obtain rfl := Json.array.inj hparams
    exact ⟨t :: params, rfl, List.forall_mem_cons.2 ⟨List.length_pos_iff.1 ht, hne⟩⟩

theorem isStmt_function (ih : v.SmallerStmts) (h : v.Fits (.record .function)) : v.IsStmt := by
  obtain ⟨ws, a, hnode, hws⟩ := fits_node rfl (by decide) h
  obtain _ | ⟨⟨hname, -⟩, _ | ⟨⟨hparams, -⟩, _ | ⟨⟨hbody, hlt⟩, _ | _⟩⟩⟩ := hws
  obtain ⟨t, rfl, ht⟩ := fits_text.1 hname
  obtain ⟨params, rfl, hne⟩ := fits_params hparams
  obtain ⟨w, hw, hreading⟩ := hnode.reading
  have halike : (Json.array (params.map .text)).Alike (.array (params.map .text)) := by
    apply alike_array
    rw [List.forall₂_same, List.forall_mem_map]
    exact fun param _ => .text param
  refine (ih.block _ hlt hbody).map (.function t params · a) (fun body hb => ?_)
    (fun body hb => ⟨List.length_pos_iff.1 ht, hne, hb, hnode.span⟩)
    fun body hb => hnode.alike _ (.cons ⟨rfl, .text t⟩ (.cons ⟨rfl, halike⟩ (.cons ⟨rfl, hb⟩ .nil)))
  rw [hreading]
  exact stmt?_function (params_reading params) hb hw

theorem isStmt_expression (h : v.Fits (.record .expression)) : v.IsStmt := by
  obtain ⟨ws, a, hnode, hws⟩ := fits_node rfl (by decide) h
  obtain _ | ⟨⟨hvalue, -⟩, _ | _⟩ := hws
  obtain ⟨w, hw, hreading⟩ := hnode.reading
  refine (isExpr_of_fits _ hvalue).map (.expression · a) (fun e he => ?_)
    (fun e he => ⟨he, hnode.span⟩) fun e he => hnode.alike _ (.cons ⟨rfl, he⟩ .nil)
  rw [hreading]
  exact stmt?_expression he hw

/-- Every value of the shape of a statement is the image of one, and so is every block. -/
theorem isStmt_of_fits (v : Json) :
    (v.Fits .statement → v.IsStmt) ∧ (v.Fits (.record .block) → v.IsBlock) := by
  have ih : v.SmallerStmts :=
    ⟨fun w hlt => (isStmt_of_fits w).1, fun w hlt => (isStmt_of_fits w).2⟩
  refine ⟨fun h => ?_, isBlock_of_smaller ih⟩
  obtain ⟨r, hmem, hfits⟩ := exists_record (by decide) h
  simp only [Record.statements, List.mem_cons, List.not_mem_nil, or_false] at hmem
  obtain rfl | rfl | rfl | rfl | rfl | rfl | rfl | rfl | rfl | rfl := hmem
  · exact isStmt_block ih hfits
  · exact isStmt_conditional ih hfits
  · exact isStmt_whileLoop ih hfits
  · exact isStmt_loop ih hfits
  · exact isStmt_breakLoop hfits
  · exact isStmt_continueLoop hfits
  · exact isStmt_returnValue hfits
  · exact isStmt_binding hfits
  · exact isStmt_function ih hfits
  · exact isStmt_expression hfits
termination_by sizeOf v

theorem isProgram_of_fits (h : v.Fits (.record .program)) :
    v.IsImage Reading.program? Program.toJson Program.Storable := by
  obtain ⟨ws, a, hnode, hws⟩ := fits_node rfl (by decide) h
  obtain _ | ⟨⟨hstmts, hlt⟩, _ | _⟩ := hws
  obtain ⟨w, hw, hreading⟩ := hnode.reading
  have ih : v.SmallerStmts := ⟨fun w _ => (isStmt_of_fits w).1, fun w _ => (isStmt_of_fits w).2⟩
  refine (isStmts_of_fits ih hlt hstmts).map (⟨·, a⟩) (fun stmts hs => ?_)
    (fun stmts hs => ⟨hs, hnode.span⟩) fun stmts hs => hnode.alike _ (.cons ⟨rfl, hs⟩ .nil)
  rw [hreading]
  exact program?_of hs hw

end Nodes

end BrookSyntax
