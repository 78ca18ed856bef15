import Mathlib.Logic.Relation
import BrookSyntax.Proofs.DocumentErrors
import BrookSyntax.Proofs.DocumentRoundTrip
import BrookSyntax.Proofs.Recognition

namespace BrookSyntax

namespace Json

variable {α : Type} {v w a : Json} {key : Text} {members others : List (Text × Json)}

/-- No object in the value has two members under one key. -/
inductive DistinctKeys : Json → Prop where
  | null : DistinctKeys .null
  | bool (value : Bool) : DistinctKeys (.bool value)
  | number (value : Binary64) : DistinctKeys (.number value)
  | text (value : Text) : DistinctKeys (.text value)
  | array {items : List Json} (h : ∀ item ∈ items, DistinctKeys item) :
    DistinctKeys (.array items)
  | object {members : List (Text × Json)} (hnodup : (members.map Prod.fst).Nodup)
    (h : ∀ member ∈ members, DistinctKeys member.2) : DistinctKeys (.object members)

/-- The second value has the members of one object of the first one in another order. -/
inductive Reorders : Json → Json → Prop where
  | here {members others : List (Text × Json)} (h : members.Perm others) :
    Reorders (.object members) (.object others)
  | item (before after : List Json) {v w : Json} (h : Reorders v w) :
    Reorders (.array (before ++ v :: after)) (.array (before ++ w :: after))
  | member (before after : List (Text × Json)) (key : Text) {v w : Json} (h : Reorders v w) :
    Reorders (.object (before ++ (key, v) :: after)) (.object (before ++ (key, w) :: after))

/-- The values are equal up to the order of the members of objects, at any depth. -/
def Reordered : Json → Json → Prop := Relation.ReflTransGen Reorders

section Reader

mutual

theorem readValue_distinctKeys (n : Nat) (t : Text) {v : Json} {rest : Text}
    (h : readValue n t = some (v, rest)) : v.DistinctKeys := by
  cases n with
  | zero => cases h
  | succ n =>
    rw [readValue] at h
    split at h
    · cases h
    split at h
    · split at h
      · cases h
        exact .object List.nodup_nil nofun
      · obtain ⟨⟨members, rest⟩, hread, he⟩ := Option.map_eq_some_iff.1 h
        cases he
        exact .object (nodup_setAll List.nodup_nil)
          (forall_mem_setAll [] nofun (readMembers_distinctKeys n _ hread))
    split at h
    · split at h
      · cases h
        exact .array nofun
      · obtain ⟨⟨items, rest⟩, hread, he⟩ := Option.map_eq_some_iff.1 h
        cases he
        exact .array (readItems_distinctKeys n _ hread)
    split at h
    · obtain ⟨r, -, he⟩ := Option.map_eq_some_iff.1 h
      cases he
      exact .text _
    split at h
    · obtain ⟨r, -, he⟩ := Option.map_eq_some_iff.1 h
      cases he
      exact .bool _
    split at h
    · obtain ⟨r, -, he⟩ := Option.map_eq_some_iff.1 h
      cases he
      exact .bool _
    split at h
    · obtain ⟨r, -, he⟩ := Option.map_eq_some_iff.1 h
      cases he
      exact .null
    · obtain ⟨r, -, he⟩ := Option.map_eq_some_iff.1 h
      cases he
      exact .number _

theorem readItems_distinctKeys (n : Nat) (t : Text) {items : List Json} {rest : Text}
    (h : readItems n t = some (items, rest)) : ∀ item ∈ items, item.DistinctKeys := by
  cases n with
  | zero => cases h
  | succ n =>
    rw [readItems] at h
    obtain ⟨⟨item, t⟩, hitem, h⟩ := Option.bind_eq_some_iff.1 h
    have hfirst := readValue_distinctKeys n _ hitem
    dsimp only at h
    split at h
    · cases h
    split at h
    · cases h
      exact List.forall_mem_singleton.2 hfirst
    split at h
    · obtain ⟨⟨items, rest⟩, hread, he⟩ := Option.map_eq_some_iff.1 h
      cases he
      exact List.forall_mem_cons.2 ⟨hfirst, readItems_distinctKeys n _ hread⟩
    · cases h

theorem readMembers_distinctKeys (n : Nat) (t : Text) {members : List (Text × Json)} {rest : Text}
    (h : readMembers n t = some (members, rest)) :
    ∀ member ∈ members, member.2.DistinctKeys := by
  cases n with
  | zero => cases h
  | succ n =>
    rw [readMembers] at h
    obtain ⟨t, -, h⟩ := Option.bind_eq_some_iff.1 h
    obtain ⟨⟨key, t⟩, -, h⟩ := Option.bind_eq_some_iff.1 h
    obtain ⟨t, -, h⟩ := Option.bind_eq_some_iff.1 h
    obtain ⟨⟨value, t⟩, hvalue, h⟩ := Option.bind_eq_some_iff.1 h
    have hfirst := readValue_distinctKeys n _ hvalue
    dsimp only at h
    split at h
    · cases h
    split at h
    · cases h
      exact List.forall_mem_singleton.2 hfirst
    split at h
    · obtain ⟨⟨members, rest⟩, hread, he⟩ := Option.map_eq_some_iff.1 h
      cases he
      exact List.forall_mem_cons.2 ⟨hfirst, readMembers_distinctKeys n _ hread⟩
    · cases h

end

/-- What is read from a text has each key once in an object: the last member of a key stays. -/
theorem read?_distinctKeys (h : read? t = some v) : v.DistinctKeys := by
  rw [read?] at h
  split at h
  · next hread =>
    split at h
    · cases h
      exact readValue_distinctKeys _ _ hread
    · cases h
  · cases h

end Reader

theorem DistinctKeys.of_field? (h : v.DistinctKeys) (ha : v.field? key = some a) :
    a.DistinctKeys := by
  cases h with
  | object _ h => exact h _ (mem_of_lookup ha)
  | _ => cases ha

theorem Reorders.distinctKeys (h : v.Reorders w) (hv : v.DistinctKeys) : w.DistinctKeys := by
  induction h with
  | here h =>
    cases hv with
    | object hnodup hv =>
      exact .object ((h.map Prod.fst).nodup hnodup) fun member hm => hv member (h.mem_iff.2 hm)
  | item before after _ ih =>
    cases hv with
    | array hv =>
      rw [List.forall_mem_append, List.forall_mem_cons] at hv
      exact .array (List.forall_mem_append.2 ⟨hv.1, List.forall_mem_cons.2 ⟨ih hv.2.1, hv.2.2⟩⟩)
  | member before after key _ ih =>
    cases hv with
    | object hnodup hv =>
      rw [List.forall_mem_append, List.forall_mem_cons] at hv
      rw [List.map_append] at hnodup
      refine .object (by rw [List.map_append]; exact hnodup) ?_
      exact List.forall_mem_append.2 ⟨hv.1, List.forall_mem_cons.2 ⟨ih hv.2.1, hv.2.2⟩⟩

theorem foldMembers_eq_map (f : Layer α → α) (members : List (Text × Json)) :
    foldMembers f members = members.map fun member => (member.1, member.2.fold f) := by
  induction members with
  | nil => rfl
  | cons member rest ih => rw [foldMembers, ih, List.map_cons]

/-- What is made of a value from the inside out does not depend on the order of members anywhere, if
for one object it does not. -/
theorem Reorders.fold_eq {f : Layer α → α}
    (hf : ∀ {members others : List (Text × Json)}, members.Perm others →
      (members.map Prod.fst).Nodup → (object members).fold f = (object others).fold f)
    (h : v.Reorders w) (hv : v.DistinctKeys) : v.fold f = w.fold f := by
  induction h with
  | here h =>
    cases hv with
    | object hnodup => exact hf h hnodup
  | item before after _ ih =>
    cases hv with
    | array hv =>
      rw [fold, fold, foldItems_eq_map, foldItems_eq_map, List.map_append, List.map_append,
        List.map_cons, List.map_cons, ih (hv _ (by simp))]
  | member before after key _ ih =>
    cases hv with
    | object _ hv =>
      rw [fold, fold, foldMembers_eq_map, foldMembers_eq_map, List.map_append, List.map_append,
        List.map_cons, List.map_cons, ih (hv (key, _) (by simp))]

section Verdicts

theorem missing_perm (h : members.Perm others) (hnodup : (members.map Prod.fst).Nodup)
    (f : Layer Verdict → Verdict) (fields : List Field) :
    Layer.missing fields (foldMembers f members) = Layer.missing fields (foldMembers f others) := by
  simp only [Layer.missing, lookup_foldMembers, lookup_perm h hnodup]

theorem excess_perm (h : members.Perm others) (f : Layer Verdict → Verdict) (fields : List Field) :
    Layer.excess fields (foldMembers f members) = Layer.excess fields (foldMembers f others) := by
  have hfolded : (foldMembers f members).Perm (foldMembers f others) := by
    rw [foldMembers_eq_map, foldMembers_eq_map]
    exact h.map _
  simp only [Layer.excess, List.map_const', (hfolded.filter _).length_eq]

theorem present_perm (h : members.Perm others) (hnodup : (members.map Prod.fst).Nodup)
    (f : Layer Verdict → Verdict) (fields : List Field) :
    Layer.present fields (foldMembers f members) = Layer.present fields (foldMembers f others) := by
  simp only [Layer.present, lookup_foldMembers, lookup_perm h hnodup]

theorem ofShape_object (members others : List (Text × Verdict)) (verdicts : RecordVerdicts)
    (shape : Shape) : Layer.ofShape (.object members) verdicts shape =
      Layer.ofShape (.object others) verdicts shape := by
  induction shape with
  | orNull shape ih => exact ih
  | _ => rfl

theorem verdict_perm (h : members.Perm others) (hnodup : (members.map Prod.fst).Nodup) :
    (object members).fold (Layer.verdict Record.fields) =
      (object others).fold (Layer.verdict Record.fields) := by
  have hrecord (fields : List Field) :
      (Layer.object (foldMembers (Layer.verdict Record.fields) members)).ofRecord fields =
        (Layer.object (foldMembers (Layer.verdict Record.fields) others)).ofRecord fields := by
    rw [Layer.ofRecord, Layer.ofRecord, missing_perm h hnodup, excess_perm h,
      present_perm h hnodup]
  rw [fold, fold, Layer.verdict, Layer.verdict]
  simp only [hrecord]
  congr 1
  funext shape
  exact ofShape_object _ _ _ shape

end Verdicts

theorem Reorders.violation?_eq (h : v.Reorders w) (hv : v.DistinctKeys) (shape : Shape) :
    v.violation? Record.fields shape = w.violation? Record.fields shape := by
  rw [violation?, violation?, h.fold_eq verdict_perm hv]

theorem Reorders.ofJson?_eq (h : v.Reorders w) (hv : v.DistinctKeys) :
    Program.ofJson? v = Program.ofJson? w := by
  have hread {members others : List (Text × Json)} (h : members.Perm others)
      (hnodup : (members.map Prod.fst).Nodup) :
      (object members).reading = (object others).reading :=
    reading_congr (lookup_perm h hnodup)
  rw [Program.ofJson?, Program.ofJson?, h.fold_eq hread hv]

section Plain

theorem plainItems?_cons_of_ne (h : v ≠ .null) (items : List Json) :
    plainItems? (v :: items) = v.plain?.bind fun t => (plainItems? items).map (t :: ·) := by
  cases v with
  | null => exact absurd rfl h
  | _ => rfl

theorem Reorders.ne_null (h : v.Reorders w) : v ≠ .null ∧ w ≠ .null := by
  cases h <;> exact ⟨nofun, nofun⟩

/-- The plain text of a value does not depend on the order: it shows no member of an object. -/
theorem Reorders.plain?_eq (h : v.Reorders w) : v.plain? = w.plain? := by
  have hobject {members others : List (Text × Json)}
      (hkeys : ∀ key, key ∈ members.map Prod.fst ↔ key ∈ others.map Prod.fst) :
      (object members).plain? = (object others).plain? := by
    simp only [plain?, lookup_isSome_iff, hkeys]
  induction h with
  | here h => exact hobject fun key => (h.map Prod.fst).mem_iff
  | @item before after v w h ih =>
    have hitems : plainItems? (before ++ v :: after) = plainItems? (before ++ w :: after) := by
      induction before with
      | nil =>
        rw [List.nil_append, List.nil_append, plainItems?_cons_of_ne h.ne_null.1,
          plainItems?_cons_of_ne h.ne_null.2, ih]
      | cons item before ihb =>
        by_cases hnull : item = .null
        · subst hnull
          rw [List.cons_append, List.cons_append, plainItems?, plainItems?, ihb]
        · rw [List.cons_append, List.cons_append, plainItems?_cons_of_ne hnull,
            plainItems?_cons_of_ne hnull, ihb]
    rw [plain?, plain?, hitems]
  | member before after key h ih =>
    refine hobject fun _ => ?_
    rw [List.map_append, List.map_append, List.map_cons, List.map_cons]

end Plain

theorem lookup_replaced (before after : List (Text × Json)) (k : Text) (v w : Json) (key : Text) :
    (before ++ (k, v) :: after).lookup key = (before ++ (k, w) :: after).lookup key ∨
      (before ++ (k, v) :: after).lookup key = some v ∧
        (before ++ (k, w) :: after).lookup key = some w := by
  rw [List.lookup_append, List.lookup_append, lookup_cons, lookup_cons]
  cases before.lookup key with
  | some u => exact .inl rfl
  | none =>
    split
    · exact .inr ⟨rfl, rfl⟩
    · exact .inl rfl

theorem Reorders.field? (h : v.Reorders w) (hv : v.DistinctKeys) (key : Text) :
    v.field? key = w.field? key ∨
      ∃ a b, v.field? key = some a ∧ w.field? key = some b ∧ a.Reorders b := by
  cases h with
  | here h =>
    cases hv with
    | object hnodup => exact .inl (lookup_perm h hnodup key)
  | item => exact .inl rfl
  | member before after k h =>
    obtain heq | ⟨ha, hb⟩ := lookup_replaced before after k _ _ key
    · exact .inl heq
    · exact .inr ⟨_, _, ha, hb, h⟩

theorem Reorders.checkVersion_eq (h : v.Reorders w) (hv : v.DistinctKeys) :
    v.checkVersion = w.checkVersion := by
  rw [checkVersion, checkVersion]
  obtain heq | ⟨a, b, ha, hb, hab⟩ := h.field? hv "version"
  · rw [heq]
  · rw [ha, hb]
    dsimp only
    rw [hab.plain?_eq]
    cases hab <;> rfl

theorem Reorders.ofDocument_eq (h : v.Reorders w) (hv : v.DistinctKeys) :
    Program.ofDocument v = Program.ofDocument w := by
  have hprogram : (v.field? "program").bind Program.ofJson? =
      (w.field? "program").bind Program.ofJson? := by
    obtain heq | ⟨a, b, ha, hb, hab⟩ := h.field? hv "program"
    · rw [heq]
    · rw [ha, hb, Option.bind_some, Option.bind_some, hab.ofJson?_eq (hv.of_field? ha)]
  have hversion := h.checkVersion_eq hv
  have hviolation := h.violation?_eq hv (.record .document)
  cases h with
  | item => rfl
  | here => simp only [Program.ofDocument, hversion, hviolation, hprogram]
  | member => simp only [Program.ofDocument, hversion, hviolation, hprogram]

theorem Reordered.distinctKeys (h : v.Reordered w) (hv : v.DistinctKeys) : w.DistinctKeys := by
  induction h with
  | refl => exact hv
  | tail _ hstep ih => exact hstep.distinctKeys ih

theorem Reordered.ofDocument_eq (h : v.Reordered w) (hv : v.DistinctKeys) :
    Program.ofDocument v = Program.ofDocument w := by
  induction h with
  | refl => rfl
  | tail hvu hstep ih => exact ih.trans (hstep.ofDocument_eq (Reordered.distinctKeys hvu hv))

theorem Reordered.field? (h : v.Reordered w) (hv : v.DistinctKeys) (ha : v.field? key = some a) :
    ∃ b, w.field? key = some b ∧ a.Reordered b := by
  induction h with
  | refl => exact ⟨a, ha, .refl⟩
  | @tail u w hvu hstep ih =>
    obtain ⟨b, hb, hab⟩ := ih
    obtain heq | ⟨b', c, hb', hc, hbc⟩ := hstep.field? (Reordered.distinctKeys hvu hv) key
    · exact ⟨b, heq ▸ hb, hab⟩
    · obtain rfl := Option.some_inj.1 (hb.symm.trans hb')
      exact ⟨c, hc, hab.tail hbc⟩

end Json

/-- Reading does not depend on the order of keys: of two texts whose values are equal but for that
order, the same program is read, or they have the same error, in the same place. What the texts hold
as their programs is then equal but for the order, too. -/
theorem Program.read_reordered {t u : Text} {v w : Json} (ht : Json.read? t = some v)
    (hu : Json.read? u = some w) (h : v.Reordered w) :
    Program.read t = Program.read u ∧
      ∀ a, v.field? "program" = some a → ∃ b, w.field? "program" = some b ∧ a.Reordered b := by
  have hkeys := Json.read?_distinctKeys ht
  constructor
  · rw [read, read, ht, hu]
    exact h.ofDocument_eq hkeys
  · exact fun a ha => h.field? hkeys ha

theorem Program.read_reordered_break :
    ∃ v w : Json,
      v = .object [("version", .text "1.0"),
        ("program", .object [("kind", .text "Break"), ("span", .null)])] ∧
      w = .object [("program", .object [("span", .null), ("kind", .text "Break")]),
        ("version", .text "1.0")] ∧
      Json.read? (v.write .indented) = some v ∧ Json.read? (w.write .indented) = some w ∧
      v.Reordered w ∧ Program.read (v.write .indented) = Program.read (w.write .indented) ∧
      Program.read (w.write .indented) = .error (.shape ⟨["program", "kind"], .notConstant⟩) := by
  have hv : Json.Proper (.object [("version", .text "1.0"),
      ("program", .object [("kind", .text "Break"), ("span", .null)])]) := by
    simp only [Json.Proper, Json.Proper.MembersProper, and_true]
    decide
  have hw : Json.Proper (.object [("program", .object [("span", .null), ("kind", .text "Break")]),
      ("version", .text "1.0")]) := by
    simp only [Json.Proper, Json.Proper.MembersProper, and_true]
    decide
  have hreadv := Json.read?_write Json.Layout.indented_isBlank _ hv
  have hreadw := Json.read?_write Json.Layout.indented_isBlank _ hw
  have hspan : Json.Reorders (.object [("kind", .text "Break"), ("span", .null)])
      (.object [("span", .null), ("kind", .text "Break")]) := .here (.swap _ _ [])
  have hinside := hspan.member [("version", .text "1.0")] [] "program"
  have houtside (program : Json) :
      Json.Reorders (.object [("version", .text "1.0"), ("program", program)])
        (.object [("program", program), ("version", .text "1.0")]) := .here (.swap _ _ [])
  have hreordered : Json.Reordered _ _ := (Relation.ReflTransGen.single hinside).tail (houtside _)
  refine ⟨_, _, rfl, rfl, hreadv, hreadw, hreordered,
    (Program.read_reordered hreadv hreadw hreordered).1, ?_⟩
  rw [Program.read, hreadw]
  rfl

end BrookSyntax
