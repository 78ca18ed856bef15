import BrookSyntax.Proofs.DocumentErrors
import BrookSyntax.Proofs.DocumentRoundTrip
import BrookSyntax.Proofs.NodeRecords
import BrookSyntax.Proofs.Nodes
import BrookSyntax.Proofs.Recognition

namespace BrookSyntax

open Json

/-- The record of the image of an expression. -/
def Expr.record : Expr → Record
  | number _ _ => .number
  | string _ _ => .string
  | bool _ _ => .bool
  | null _ => .null
  | name _ => .name
  | unary _ _ _ => .unary
  | binary _ _ _ _ => .binary
  | assign _ _ _ => .assign
  | call _ _ _ => .call

/-- The record of the image of a statement. -/
def Stmt.record : Stmt → Record
  | block _ => .block
  | conditional _ _ _ _ => .conditional
  | whileLoop _ _ _ => .whileLoop
  | loop _ _ => .loop
  | breakLoop _ => .breakLoop
  | continueLoop _ => .continueLoop
  | returnValue _ _ => .returnValue
  | binding _ _ _ _ => .binding
  | function _ _ _ _ => .function
  | expression _ _ => .expression

namespace Node

def toJson : Node → Json
  | program p => p.toJson
  | block body => body.toJson
  | stmt st => st.toJson
  | expr e => e.toJson

def Storable : Node → Prop
  | program p => p.Storable
  | block body => body.Storable
  | stmt st => st.Storable
  | expr e => e.Storable

/-- The record of the image of a node. -/
def record : Node → Record
  | program _ => .program
  | block _ => .block
  | stmt st => st.record
  | expr e => e.record

/-- The records that may stand in the place of a node. -/
def choices : Node → List Record
  | program _ => [.program]
  | block _ => [.block]
  | stmt _ => Record.statements
  | expr _ => Record.expressions

variable {n m : Node} {r : Record} {w : Json}

theorem record_mem_choices (n : Node) : n.record ∈ n.choices := by
  cases n with
  | program => exact List.mem_singleton_self _
  | block => exact List.mem_singleton_self _
  | stmt st =>
    cases st <;> simp only [record, Stmt.record, choices, Record.statements, List.mem_cons, true_or,
      or_true]
  | expr e =>
    cases e <;> simp only [record, Expr.record, choices, Record.expressions, List.mem_cons, true_or,
      or_true]

theorem isNode_of_mem (h : r ∈ n.choices) : r.isNode := by
  cases n with
  | program =>
    obtain rfl := List.mem_singleton.1 h
    rfl
  | block =>
    obtain rfl := List.mem_singleton.1 h
    rfl
  | stmt => exact Record.IsChoice.isNode (.inl rfl) h
  | expr => exact Record.IsChoice.isNode (.inr rfl) h

theorem toJson_eq_node (n : Node) :
    ∃ members a, n.toJson = Json.node (nodeKind n.record) members a := by
  cases n with
  | program => exact ⟨_, _, rfl⟩
  | block body =>
    cases body
    exact ⟨_, _, rfl⟩
  | stmt st =>
    cases st with
    | block body =>
      cases body
      exact ⟨_, _, rfl⟩
    | _ => exact ⟨_, _, rfl⟩
  | expr e => cases e <;> exact ⟨_, _, rfl⟩

theorem Storable.fits (h : n.Storable) : ∃ r ∈ n.choices, n.toJson.Fits (.record r) := by
  cases n with
  | program p => exact ⟨_, List.mem_singleton_self _, (Program.Storable.conforms h).fits⟩
  | block body => exact ⟨_, List.mem_singleton_self _, (body.conforms h).fits⟩
  | stmt st => exact exists_record (Record.IsChoice.nodup (.inl rfl)) (st.conforms h).fits
  | expr e => exact exists_record (Record.IsChoice.nodup (.inr rfl)) (e.conforms h).fits

/-- Of the records that may stand in the place of a node, its image is exactly the node's own. -/
theorem Storable.fits_iff (h : n.Storable) (hw : w.Alike n.toJson) (hr : r ∈ n.choices) :
    w.Fits (.record r) ↔ r = n.record := by
  have hkind {r : Record} (hr : r ∈ n.choices) (hfits : n.toJson.Fits (.record r)) :
      r = n.record := by
    obtain ⟨members, a, heq⟩ := n.toJson_eq_node
    rw [heq] at hfits
    have hnamed := Json.text.inj (Option.some.inj (lookup_kind (isNode_of_mem hr) hfits))
    exact Record.nodeKind_inj (isNode_of_mem hr) (isNode_of_mem n.record_mem_choices) hnamed.symm
  rw [hw.fits]
  refine ⟨hkind hr, ?_⟩
  rintro rfl
  obtain ⟨r, hr, hfits⟩ := h.fits
  exact hkind hr hfits ▸ hfits

theorem contains_member {members : List (Text × Json)} (key : Text)
    (h : members.lookup key = some w) : (Json.object members).Contains w :=
  .member h (.self w)

theorem contains_item {members : List (Text × Json)} {items : List Json} (key : Text)
    (h : members.lookup key = some (.array items)) (hw : w ∈ items) :
    (Json.object members).Contains w :=
  .member h (.item hw (.self w))

theorem contains_statement {members : List (Text × Json)} {stmts : List Stmt}
    (h : members.lookup ("statements" : Text) = some (.array (Stmt.allToJson stmts)))
    (hstmts : Stmt.AllStorable stmts) (hm : m ∈ stmts.map .stmt) :
    m.Storable ∧ (Json.object members).Contains m.toJson := by
  obtain ⟨st, hst, rfl⟩ := List.mem_map.1 hm
  have hmem : st.toJson ∈ Stmt.allToJson stmts := by
    rw [Stmt.allToJson_eq_map]
    exact List.mem_map_of_mem hst
  exact ⟨Stmt.allStorable_iff.1 hstmts st hst, contains_item "statements" h hmem⟩

theorem Storable.child_of_stmt {st : Stmt} (h : st.Storable) (hm : m ∈ (stmt st).children) :
    m.Storable ∧ st.toJson.Contains m.toJson := by
  cases st with
  | block body =>
    obtain ⟨stmts, a⟩ := body
    exact contains_statement rfl h.1 hm
  | conditional condition thenBlock elseBlock a =>
    obtain ⟨hc, ht, he, -⟩ := h
    obtain rfl | hm := List.mem_cons.1 hm
    · exact ⟨hc, contains_member "condition" rfl⟩
    obtain rfl | hm := List.mem_cons.1 hm
    · exact ⟨ht, contains_member "thenBlock" rfl⟩
    cases elseBlock with
    | none => cases hm
    | some other =>
      obtain rfl := List.mem_singleton.1 hm
      exact ⟨he, contains_member "elseBlock" rfl⟩
  | whileLoop condition body a =>
    obtain rfl | hm := List.mem_cons.1 hm
    · exact ⟨h.1, contains_member "condition" rfl⟩
    · obtain rfl := List.mem_singleton.1 hm
      exact ⟨h.2.1, contains_member "body" rfl⟩
  | loop body a =>
    obtain rfl := List.mem_singleton.1 hm
    exact ⟨h.1, contains_member "body" rfl⟩
  | breakLoop => cases hm
  | continueLoop => cases hm
  | returnValue value a =>
    cases value with
    | none => cases hm
    | some e =>
      obtain rfl := List.mem_singleton.1 hm
      exact ⟨h.1, contains_member "value" rfl⟩
  | binding name isMutable init a =>
    cases init with
    | none => cases hm
    | some e =>
      obtain rfl := List.mem_singleton.1 hm
      exact ⟨h.2.1, contains_member "init" rfl⟩
  | function name params body a =>
    obtain rfl := List.mem_singleton.1 hm
    exact ⟨h.2.2.1, contains_member "body" rfl⟩
  | expression value a =>
    obtain rfl := List.mem_singleton.1 hm
    exact ⟨h.1, contains_member "expression" rfl⟩

theorem Storable.child_of_expr {e : Expr} (h : e.Storable) (hm : m ∈ (expr e).children) :
    m.Storable ∧ e.toJson.Contains m.toJson := by
  cases e with
  | number | string | bool | null | name => cases hm
  | unary op operand a =>
    obtain rfl := List.mem_singleton.1 hm
    exact ⟨h.1, contains_member "operand" rfl⟩
  | binary op left right a =>
    obtain rfl | hm := List.mem_cons.1 hm
    · exact ⟨h.1, contains_member "left" rfl⟩
    · obtain rfl := List.mem_singleton.1 hm
      exact ⟨h.2.1, contains_member "right" rfl⟩
  | assign target value a =>
    obtain rfl | hm := List.mem_cons.1 hm
    · exact ⟨h.1, contains_member "target" rfl⟩
    · obtain rfl := List.mem_singleton.1 hm
      exact ⟨h.2.1, contains_member "value" rfl⟩
  | call callee args a =>
    obtain rfl | hm := List.mem_cons.1 hm
    · exact ⟨h.1, contains_member "callee" rfl⟩
    · obtain ⟨e, he, rfl⟩ := List.mem_map.1 hm
      refine ⟨Expr.allStorable_iff.1 h.2.1 e he, contains_item "args" rfl ?_⟩
      rw [Expr.allToJson_eq_map]
      exact List.mem_map_of_mem he

theorem Storable.child (h : n.Storable) (hm : m ∈ n.children) :
    m.Storable ∧ n.toJson.Contains m.toJson := by
  cases n with
  | program p => exact contains_statement rfl h.1 hm
  | block body =>
    obtain ⟨stmts, a⟩ := body
    exact contains_statement rfl h.1 hm
  | stmt st => exact child_of_stmt h hm
  | expr e => exact child_of_expr h hm

theorem Storable.contains (h : n.Storable) (hm : n.Contains m) :
    m.Storable ∧ n.toJson.Contains m.toJson := by
  induction hm with
  | self => exact ⟨h, .self _⟩
  | child hc _ ih =>
    obtain ⟨hstorable, hinside⟩ := h.child hc
    obtain ⟨hm, hcontains⟩ := ih hstorable
    exact ⟨hm, hcontains.trans hinside⟩

end Node

section Documents

variable {members : List (Text × Json)} {p : Program} {v : Json}

/-- The members of a document of a program: the version of the format, an image of the program, and
perhaps metadata. -/
structure IsDocumentOf (members : List (Text × Json)) (p : Program) : Prop where
  keys : ∀ key, (members.lookup key).isSome → key ∈ (["version", "program", "metadata"] : List Text)
  version : members.lookup ("version" : Text) = some (.text formatVersion)
  program : ∃ v, members.lookup ("program" : Text) = some v ∧ v.Alike p.toJson
  metadata : ∀ v, members.lookup ("metadata" : Text) = some v → ∃ entries, v = .object entries ∧
    ∀ key value, entries.lookup key = some value → key ∈ metadataKeys ∧ ∃ t, value = .text t

theorem fits_metadata : v.Fits (.record .metadata) ↔ ∃ entries, v = .object entries ∧
    ∀ key value, entries.lookup key = some value → key ∈ metadataKeys ∧ ∃ t, value = .text t := by
  have hfields : ∀ field ∈ Record.fields .metadata,
      field.shape = .text 0 ∧ field.required = false := by
    simp only [Record.fields, List.forall_mem_cons, List.not_mem_nil, false_implies, implies_true,
      and_self]
  constructor
  · intro h
    obtain ⟨entries, rfl⟩ := fits_record h
    obtain ⟨-, hkeys, hfits⟩ := fits_object.1 h
    refine ⟨entries, rfl, fun key value hvalue => ?_⟩
    have hkey : key ∈ (Record.fields .metadata).map Field.name := hkeys key (hvalue ▸ rfl)
    refine ⟨hkey, ?_⟩
    obtain ⟨field, hf, rfl⟩ := List.mem_map.1 hkey
    have hvalue := hfits field hf value hvalue
    rw [(hfields field hf).1] at hvalue
    obtain ⟨t, ht, -⟩ := fits_text.1 hvalue
    exact ⟨t, ht⟩
  · rintro ⟨entries, rfl, hentries⟩
    refine fits_object.2
      ⟨fun field hf hr => ?_, fun key hkey => ?_, fun field hf value hvalue => ?_⟩
    · rw [(hfields field hf).2] at hr
      cases hr
    · obtain ⟨value, hvalue⟩ := Option.isSome_iff_exists.1 hkey
      exact (hentries key value hvalue).1
    · obtain ⟨-, t, rfl⟩ := hentries _ value hvalue
      rw [(hfields field hf).1]
      exact fits_text.2 ⟨t, rfl, Nat.zero_le _⟩

theorem fits_document : (Json.object members).Fits (.record .document) ↔
    (∀ key, (members.lookup key).isSome → key ∈ (["version", "program", "metadata"] : List Text)) ∧
    members.lookup ("version" : Text) = some (.text formatVersion) ∧
    (∃ v, members.lookup ("program" : Text) = some v ∧ v.Fits (.record .program)) ∧
    ∀ v, members.lookup ("metadata" : Text) = some v → v.Fits (.record .metadata) := by
  constructor
  · intro h
    obtain ⟨hrequired, hkeys, hfits⟩ := fits_object.1 h
    have hfield (field : Field) (hf : field ∈ Record.fields .document) (hr : field.required) :
        ∃ w, members.lookup field.name = some w ∧ w.Fits field.shape := by
      obtain ⟨w, hw⟩ := Option.isSome_iff_exists.1 (hrequired field hf hr)
      exact ⟨w, hw, hfits field hf w hw⟩
    obtain ⟨w, hversion, hw⟩ := hfield _ List.mem_cons_self rfl
    obtain rfl := fits_constant.1 hw
    exact ⟨hkeys, hversion, hfield _ (List.mem_cons_of_mem _ List.mem_cons_self) rfl,
      hfits _ (List.mem_cons_of_mem _ (List.mem_cons_of_mem _ List.mem_cons_self))⟩
  · rintro ⟨hkeys, hversion, ⟨w, hw, hfits⟩, hmetadata⟩
    refine fits_object.2 ⟨?_, hkeys, ?_⟩
    · simp only [Record.fields, List.forall_mem_cons, hversion, hw, Option.isSome_some,
        implies_true, Bool.false_eq_true, false_implies, List.not_mem_nil, and_self]
    · simp only [Record.fields, List.forall_mem_cons, hversion, hw, Option.some_inj, forall_eq',
        List.not_mem_nil, false_implies, implies_true, and_true]
      exact ⟨fits_constant.2 rfl, hfits, hmetadata⟩

theorem Program.ofDocument_eq_ok : Program.ofDocument v = .ok p ↔
    v.Fits (.record .document) ∧ (v.field? "program").bind Program.ofJson? = some p := by
  constructor
  · intro h
    cases v with
    | object members =>
      rw [ofDocument] at h
      cases hversion : (Json.object members).checkVersion with
      | error e =>
        rw [hversion] at h
        cases h
      | ok =>
        simp only [hversion, bind, Except.bind] at h
        split at h
        · cases h
        · next hfits =>
          split at h
          · next hread => exact ⟨hfits, (Except.ok.inj h) ▸ hread⟩
          · cases h
    | _ => cases h
  · rintro ⟨hfits, hread⟩
    obtain ⟨members, rfl⟩ := fits_record hfits
    exact ofDocument_object (checkVersion_eq_ok.2 (fits_document.1 hfits).2.1) hfits hread

/-- A value of the shape of a document is a document of a program that can be stored, and a program
is read from it. -/
theorem Program.exists_of_fits (h : (Json.object members).Fits (.record .document)) :
    (∃ p, Program.ofDocument (.object members) = .ok p ∧ IsDocumentOf members p) ∧
      ∃ p : Program, p.Storable ∧ IsDocumentOf members p := by
  obtain ⟨hkeys, hversion, ⟨w, hw, hfits⟩, hmetadata⟩ := fits_document.1 h
  obtain ⟨⟨p, hread, halike⟩, ⟨p', hstored, halike'⟩⟩ := isProgram_of_fits hfits
  have hdocument {p : Program} (hp : w.Alike p.toJson) : IsDocumentOf members p :=
    ⟨hkeys, hversion, ⟨w, hw, hp⟩, fun v hv => fits_metadata.1 (hmetadata v hv)⟩
  refine ⟨⟨p, ofDocument_eq_ok.2 ⟨h, ?_⟩, hdocument halike⟩, ⟨p', hstored, hdocument halike'⟩⟩
  rw [field?, hw, Option.bind_some]
  exact hread

theorem IsDocumentOf.fits (h : IsDocumentOf members p) (hp : p.Storable) :
    (Json.object members).Fits (.record .document) := by
  obtain ⟨w, hw, halike⟩ := h.program
  exact fits_document.2 ⟨h.keys, h.version, ⟨w, hw, (halike.fits _).2 hp.conforms.fits⟩,
    fun v hv => fits_metadata.2 (h.metadata v hv)⟩

/-- A document is accepted if and only if it holds an image of a program that can be stored, and the
program that is read is one of which it holds the image. Inside the document stands an image of each
node, which is the node's record and no other one that may stand in its place. -/
theorem Program.accepted_iff_image (v : Json) :
    ((∃ p, Program.ofDocument v = .ok p) ↔
      ∃ members p, v = .object members ∧ IsDocumentOf members p ∧ p.Storable) ∧
    (∀ p, Program.ofDocument v = .ok p → ∃ members, v = .object members ∧ IsDocumentOf members p) ∧
    (∀ members p, v = .object members → IsDocumentOf members p → p.Storable →
      ∀ n, (Node.program p).Contains n → ∃ w, v.Contains w ∧ w.Alike n.toJson ∧
        n.record ∈ n.choices ∧ ∀ r ∈ n.choices, w.Fits (.record r) ↔ r = n.record) := by
  have hobject {p : Program} (h : Program.ofDocument v = .ok p) :
      ∃ members, v = .object members ∧ (Json.object members).Fits (.record .document) := by
    obtain ⟨hfits, -⟩ := Program.ofDocument_eq_ok.1 h
    obtain ⟨members, rfl⟩ := fits_record hfits
    exact ⟨members, rfl, hfits⟩
  refine ⟨⟨?_, ?_⟩, ?_, ?_⟩
  · rintro ⟨p, hp⟩
    obtain ⟨members, rfl, hfits⟩ := hobject hp
    obtain ⟨-, p', hstored, hdocument⟩ := Program.exists_of_fits hfits
    exact ⟨members, p', rfl, hdocument, hstored⟩
  · rintro ⟨members, p, rfl, hdocument, hp⟩
    obtain ⟨⟨p', hread, -⟩, -⟩ := Program.exists_of_fits (hdocument.fits hp)
    exact ⟨p', hread⟩
  · intro p hp
    obtain ⟨members, rfl, hfits⟩ := hobject hp
    obtain ⟨⟨p', hread, hdocument⟩, -⟩ := Program.exists_of_fits hfits
    obtain rfl := Except.ok.inj (hp.symm.trans hread)
    exact ⟨members, rfl, hdocument⟩
  · rintro members p rfl hdocument hp n hn
    obtain ⟨u, hu, halike⟩ := hdocument.program
    have hstorable : (Node.program p).Storable := hp
    obtain ⟨hn, hinside⟩ := hstorable.contains hn
    obtain ⟨w, hw, hwn⟩ := halike.contains hinside
    exact ⟨w, .member hu hw, hwn, n.record_mem_choices, fun r hr => hn.fits_iff hwn hr⟩

theorem Program.accepted_iff_image_reversed :
    ∃ (p q : Program) (members : List (Text × Json)) (w : Json),
      p.statements = [.breakLoop p.span] ∧
      members.map Prod.fst = ([("program" : Text), "version"] : List Text) ∧ p.Storable ∧
      IsDocumentOf members p ∧ Program.ofDocument (.object members) = .ok q ∧
      IsDocumentOf members q ∧ (Json.object members).Contains w ∧
      w.Fits (.record .breakLoop) ∧ ¬ w.Fits (.record .continueLoop) := by
  have hrepresents (n : Nat) (h : n ≤ 2 ^ 53) : Binary64.Represents n := Binary64.toInt?_ofNat h
  have hstart : Position.Storable ⟨1, 1, 0⟩ :=
    ⟨by decide, by decide, hrepresents 1 (by decide), hrepresents 1 (by decide),
      hrepresents 0 (by decide)⟩
  have hspan : Span.Storable (.point ⟨1, 1, 0⟩) := ⟨hstart, hstart⟩
  have hp : Program.Storable ⟨[.breakLoop (.point ⟨1, 1, 0⟩)], .point ⟨1, 1, 0⟩⟩ :=
    ⟨⟨hspan, trivial⟩, hspan⟩
  generalize hpr : (⟨[.breakLoop (.point ⟨1, 1, 0⟩)], .point ⟨1, 1, 0⟩⟩ : Program) = p at hp
  have hstatements : p.statements = [.breakLoop p.span] := hpr ▸ rfl
  obtain ⟨members, hmembers⟩ : ∃ members, p.toJson = .object members := ⟨_, rfl⟩
  have halike : (Json.object members.reverse).Alike p.toJson := by
    have hrefl := Alike.refl _ hp.conforms.proper
    have hkeys := hp.conforms.proper
    rw [hmembers] at hrefl hkeys ⊢
    have hnodup : (members.reverse.map Prod.fst).Nodup := by
      rw [List.map_reverse, List.nodup_reverse]
      exact hkeys.1
    exact .of_lookup (lookup_perm (List.reverse_perm members) hnodup) hrefl
  have hdocument : IsDocumentOf
      [("program", .object members.reverse), ("version", .text formatVersion)] p := by
    refine ⟨fun key hkey => ?_, rfl, ⟨_, rfl, halike⟩, fun metadata h => by cases h⟩
    obtain h | h := List.mem_cons.1 (lookup_isSome_iff.1 hkey)
    · subst h
      exact List.mem_cons_of_mem _ List.mem_cons_self
    · obtain rfl := List.mem_singleton.1 h
      exact List.mem_cons_self
  obtain ⟨q, hq⟩ := (Program.accepted_iff_image _).1.2 ⟨_, p, rfl, hdocument, hp⟩
  obtain ⟨_, hmembers', hq'⟩ := (Program.accepted_iff_image _).2.1 q hq
  obtain rfl := Json.object.inj hmembers'
  have hcontains : (Node.program p).Contains (.stmt (.breakLoop p.span)) := by
    refine .child ?_ (.self _)
    rw [Node.children, hstatements]
    exact List.mem_cons_self
  obtain ⟨w, hw, -, hmem, hone⟩ :=
    (Program.accepted_iff_image _).2.2 _ p rfl hdocument hp _ hcontains
  have hother : Record.continueLoop ∈ (Node.stmt (.breakLoop p.span)).choices := by
    simp only [Node.choices, Record.statements, List.mem_cons, true_or, or_true]
  refine ⟨p, q, _, w, hstatements, rfl, hp, hdocument, hq, hq', hw, (hone _ hmem).2 rfl, ?_⟩
  rw [hone _ hother]
  intro h
  cases h

end Documents

end BrookSyntax
