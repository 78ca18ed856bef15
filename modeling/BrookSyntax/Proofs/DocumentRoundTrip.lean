import BrookSyntax.Document
import BrookSyntax.Proofs.ImageReading
import BrookSyntax.Proofs.JsonRoundTrip
import BrookSyntax.Proofs.OutcomeContract
import BrookSyntax.Proofs.ParsedTrees

namespace BrookSyntax

namespace Json

variable {α : Type} {key : Text} {value : α} {members fields : List (Text × α)}

theorem forall_mem_set {P : Text × α → Prop} (hm : ∀ member ∈ members, P member)
    (hnew : P (key, value)) : ∀ member ∈ set key value members, P member := by
  induction members with
  | nil => exact List.forall_mem_singleton.2 hnew
  | cons member rest ih =>
    rw [List.forall_mem_cons] at hm
    rw [set]
    split
    · exact List.forall_mem_cons.2 ⟨hnew, hm.2⟩
    · exact List.forall_mem_cons.2 ⟨hm.1, ih hm.2⟩

theorem forall_mem_setAll (members : List (Text × α)) {P : Text × α → Prop}
    (hm : ∀ member ∈ members, P member) (hf : ∀ field ∈ fields, P field) :
    ∀ member ∈ setAll members fields, P member := by
  induction fields generalizing members with
  | nil => exact hm
  | cons field rest ih =>
    rw [List.forall_mem_cons] at hf
    exact ih _ (forall_mem_set hm hf.1) hf.2

theorem nodup_set (h : (members.map Prod.fst).Nodup) :
    ((set key value members).map Prod.fst).Nodup := by
  induction members with
  | nil => exact List.nodup_singleton key
  | cons member rest ih =>
    rw [List.map_cons, List.nodup_cons] at h
    rw [set]
    split
    · next hk =>
      rw [List.map_cons, List.nodup_cons, ← hk]
      exact h
    · next hk =>
      rw [List.map_cons, List.nodup_cons]
      refine ⟨?_, ih h.2⟩
      have hother : ∀ other ∈ set key value rest, member.1 ≠ other.1 :=
        forall_mem_set (fun other ho he => h.1 (he ▸ List.mem_map_of_mem ho)) hk
      intro hmem
      obtain ⟨other, ho, he⟩ := List.mem_map.1 hmem
      exact hother other ho he.symm

theorem nodup_setAll (h : (members.map Prod.fst).Nodup) :
    ((setAll members fields).map Prod.fst).Nodup := by
  induction fields generalizing members with
  | nil => exact h
  | cons field rest ih => exact ih (nodup_set h)

theorem listed_of_no_index (h : ∀ member ∈ members, index? member.1 = none) :
    listed members = members := by
  have hnone :
      (members.filterMap fun member => (index? member.1).map fun n => (n, member)) = [] := by
    rw [List.filterMap_eq_nil_iff]
    intro member hm
    rw [h member hm, Option.map_none]
  rw [listed, indexed, hnone, List.mergeSort_nil, List.map_nil, List.nil_append,
    List.filter_eq_self]
  intro member hm
  rw [h member hm]
  rfl

end Json

/-- The keys that metadata may have. -/
def metadataKeys : List Text := ["generatedAt", "source", "compilerVersion"]

/-- No metadata, or texts under the keys that metadata may have. -/
def IsMetadata (metadata : Option (List (Text × Text))) : Prop :=
  ∀ entries ∈ metadata, ∀ entry ∈ entries, entry.1 ∈ metadataKeys

open Json

theorem conforms_metadata {entries : List (Text × Text)}
    (h : ∀ entry ∈ entries, entry.1 ∈ metadataKeys) :
    (Json.record (entries.map fun entry => (entry.1, .text entry.2))).Conforms
      (.record .metadata) := by
  have hentries : ∀ field ∈ entries.map fun entry => (entry.1, Json.text entry.2),
      field.1 ∈ metadataKeys ∧ ∃ t, field.2 = Json.text t := by
    rw [List.forall_mem_map]
    exact fun entry he => ⟨h entry he, entry.2, rfl⟩
  have hmembers := forall_mem_setAll [] nofun hentries
  have hindex : ∀ key ∈ metadataKeys, index? key = none := by decide
  rw [Json.record, listed_of_no_index fun member hm => hindex _ (hmembers member hm).1]
  have hfields : ∀ field ∈ Record.fields .metadata,
      field.shape = .text 0 ∧ field.required = false := by
    simp only [Record.fields, List.forall_mem_cons, List.not_mem_nil, false_implies, implies_true,
      and_self]
  apply conforms_object
  · exact nodup_setAll List.nodup_nil
  · intro field hf hr
    rw [(hfields field hf).2] at hr
    cases hr
  · intro member hm
    obtain ⟨hkey, t, ht⟩ := hmembers member hm
    have hname : member.1 ∈ (Record.fields .metadata).map Field.name := hkey
    obtain ⟨field, hf, he⟩ := List.mem_map.1 hname
    refine ⟨field, hf, he.symm, ?_⟩
    rw [ht, (hfields field hf).1]
    exact conforms_text (Nat.zero_le _)

section Documents

variable {p : Program} {metadata : Option (List (Text × Text))}

theorem Program.Storable.conforms_document (hp : p.Storable) (hm : IsMetadata metadata) :
    (p.document metadata).Conforms (.record .document) := by
  have hversion := conforms_constant formatVersion
  have hprogram := hp.conforms
  cases metadata with
  | none =>
    have hrequired : ∀ field ∈ Record.fields .document, field.required →
        field.name ∈ ([("version" : Text), "program"] : List Text) := by decide
    apply conforms_object
    · have hne : ("version" : Text) ∉ ([("program" : Text)] : List Text) := by decide
      exact List.nodup_cons.2 ⟨hne, List.nodup_singleton _⟩
    · exact hrequired
    · rw [List.forall_mem_cons, List.forall_mem_singleton]
      exact ⟨⟨_, List.mem_cons_self, rfl, hversion⟩,
        ⟨_, List.mem_cons_of_mem _ List.mem_cons_self, rfl, hprogram⟩⟩
  | some entries =>
    have hmetadata := conforms_metadata (hm entries rfl)
    exact conforms_record (.cons ⟨rfl, hversion⟩ (.cons ⟨rfl, hprogram⟩
      (.cons ⟨rfl, hmetadata⟩ .nil)))

theorem Program.document_version (p : Program) (metadata : Option (List (Text × Text))) :
    (p.document metadata).field? "version" = some (.text formatVersion) := by
  cases metadata <;> rfl

theorem Program.document_program (p : Program) (metadata : Option (List (Text × Text))) :
    (p.document metadata).field? "program" = some p.toJson := by
  cases metadata <;> rfl

theorem Program.document_checkVersion (p : Program) (metadata : Option (List (Text × Text))) :
    (p.document metadata).checkVersion = .ok () := by
  rw [checkVersion, document_version]
  rfl

theorem Program.ofDocument_object {members : List (Text × Json)}
    (hversion : (Json.object members).checkVersion = .ok ())
    (hfits : (Json.object members).violation? Record.fields (.record .document) = none)
    (hread : ((Json.object members).field? "program").bind Program.ofJson? = some p) :
    Program.ofDocument (.object members) = .ok p := by
  rw [Program.ofDocument, hversion]
  simp only [hfits, hread]
  rfl

theorem Program.Storable.ofDocument_document (hp : p.Storable) (hm : IsMetadata metadata) :
    Program.ofDocument (p.document metadata) = .ok p := by
  have hfits := (hp.conforms_document hm).fits
  have hobject : ∃ members, p.document metadata = .object members := by
    cases metadata <;> exact ⟨_, rfl⟩
  obtain ⟨members, hmembers⟩ := hobject
  have hversion := p.document_checkVersion metadata
  have hprogram := p.document_program metadata
  rw [hmembers] at hfits hversion hprogram ⊢
  apply Program.ofDocument_object hversion hfits
  rw [hprogram, Option.bind_some, hp.ofJson?_toJson]

theorem Program.Storable.read_write (hp : p.Storable) (hm : IsMetadata metadata) :
    Program.read (p.write metadata) = .ok p ∧ Program.isDocument (p.write metadata) = true := by
  have hconforms := hp.conforms_document hm
  have hdocument := hp.ofDocument_document hm
  have hread : Program.read (p.write metadata) = .ok p := by
    rw [Program.read, Program.write]
    generalize p.document metadata = v at hconforms hdocument ⊢
    rw [read?_write Layout.indented_isBlank v hconforms.proper]
    exact hdocument
  refine ⟨hread, ?_⟩
  rw [Program.isDocument, hread]

end Documents

theorem Source.outcome_storable {s : Source} (hs : s.length < 2 ^ 53) {offset : Double}
    {file : Option Text} {config : Config} {clock : Clock} {o : Outcome} {p : Program}
    (h : s.outcome offset file config clock = .ok o) (hp : o.tree = some p) : p.Storable := by
  rw [outcome] at h
  cases hparse : s.parse offset with
  | error e =>
    rw [hparse] at h
    cases h
  | ok result =>
    rw [hparse] at h
    cases result with
    | ok d program =>
      obtain rfl := Except.ok.inj h
      obtain rfl := Option.some.inj hp
      exact Source.parse_storable hs hparse
    | failed f =>
      obtain rfl := Except.ok.inj h
      cases hp

/-- The document of a program is read as that program, whatever the metadata, if its numbers are
finite and not negative zero, its names have letters and its places count from one; every tree that
the parser gives is so. No text has `2 ^ 53` units or more. -/
theorem Program.document_roundTrip :
    (∀ (p : Program) (metadata : Option (List (Text × Text))), p.Storable → IsMetadata metadata →
      Program.read (p.write metadata) = .ok p ∧ Program.isDocument (p.write metadata) = true) ∧
    (∀ (s : Source) (offset : Double) (file : Option Text) (config : Config) (clock : Clock)
      (o : Outcome) (p : Program) (metadata : Option (List (Text × Text))), s.length < 2 ^ 53 →
      s.outcome offset file config clock = .ok o → o.tree = some p → IsMetadata metadata →
      Program.read (p.write metadata) = .ok p ∧ Program.isDocument (p.write metadata) = true) := by
  constructor
  · intro p metadata hp hm
    exact hp.read_write hm
  · intro s offset file config clock o p metadata hs ho hp hm
    exact (s.outcome_storable hs ho hp).read_write hm

theorem Program.document_roundTrip_surrogate :
    ∃ (p q : Program) (o : Outcome),
      p.statements = [.returnValue (some (.string [0, 0xD800, CodeUnit.quote] p.span)) p.span] ∧
      Program.read (p.write none) = .ok p ∧
      (Source.ofText "x = 1;").outcome .zero none {} ⟨"", .zero⟩ = .ok o ∧ o.tree = some q ∧
      Program.read (q.write (some [("source", CodeUnit.backslash :: "main")])) = .ok q := by
  have hrepresents (n : Nat) (h : n ≤ 2 ^ 53) : Binary64.Represents n := Binary64.toInt?_ofNat h
  have hstart : Position.Storable ⟨1, 1, 0⟩ :=
    ⟨by decide, by decide, hrepresents 1 (by decide), hrepresents 1 (by decide),
      hrepresents 0 (by decide)⟩
  have hspan : Span.Storable (.point ⟨1, 1, 0⟩) := ⟨hstart, hstart⟩
  have hp : Program.Storable ⟨[.returnValue
      (some (.string [0, 0xD800, CodeUnit.quote] (.point ⟨1, 1, 0⟩))) (.point ⟨1, 1, 0⟩)],
      .point ⟨1, 1, 0⟩⟩ :=
    ⟨⟨⟨hspan, hspan⟩, trivial⟩, hspan⟩
  have hzero : Double.zero.toInt? = some ((0 : Nat) : Int) := by decide +kernel
  have hstop : (Grammar.program (.ofText "x = 1;") ⟨0, 0⟩).stop? = some ⟨6, 0⟩ := by
    decide +kernel
  obtain ⟨q, hq⟩ := Result.ok_of_stop hstop
  have hparse : (Source.ofText "x = 1;").parse .zero = .ok (.ok ⟨6, 0⟩ q) := by
    rw [Source.parse, Source.cursor_eq_ok (Nat.zero_le _) hzero, ← hq]
    rfl
  have houtcome : ∃ o, (Source.ofText "x = 1;").outcome .zero none {} ⟨"", .zero⟩ = .ok o ∧
      o.tree = some q := by
    rw [Source.outcome, hparse]
    exact ⟨_, rfl, rfl⟩
  obtain ⟨o, ho, htree⟩ := houtcome
  have hmetadata : IsMetadata (some [("source", CodeUnit.backslash :: "main")]) := by
    intro entries he
    obtain rfl := Option.some.inj he
    exact List.forall_mem_singleton.2 (by decide)
  have hread := (Program.document_roundTrip.1 _ none hp fun _ h => by cases h).1
  have hread' := (Program.document_roundTrip.2 _ _ _ _ _ o q _ (by decide) ho htree hmetadata).1
  exact ⟨_, q, o, rfl, hread, ho, htree, hread'⟩

end BrookSyntax
