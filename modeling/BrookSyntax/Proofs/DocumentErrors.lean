import BrookSyntax.Document

namespace BrookSyntax

namespace Json

variable {v found : Json} {e : DocumentError}

/-- The value has no plain text: it is an object with a member of its own where the way to make the
text is looked up, or an array with such an item. -/
inductive Unprintable : Json → Prop where
  | object {members : List (Text × Json)} (h : (members.lookup ("toString" : Text)).isSome) :
    Unprintable (.object members)
  | array {items : List Json} {item : Json} (hmem : item ∈ items) (h : Unprintable item) :
    Unprintable (.array items)

theorem plainItems?_cons {item : Json} {rest : List Json} :
    plainItems? (item :: rest) = none ↔ item.plain? = none ∨ plainItems? rest = none := by
  have hbind (item : Json) : (item.plain?.bind fun t => (plainItems? rest).map (t :: ·)) = none ↔
      item.plain? = none ∨ plainItems? rest = none := by
    cases item.plain? with
    | none => simp only [Option.bind_none, true_or]
    | some t => simp only [Option.bind_some, Option.map_eq_none_iff, reduceCtorEq, false_or]
  cases item with
  | null => simp only [plainItems?, plain?, Option.map_eq_none_iff, reduceCtorEq, false_or]
  | bool => exact hbind _
  | number => exact hbind _
  | text => exact hbind _
  | array => exact hbind _
  | object => exact hbind _

mutual

theorem plain?_eq_none (v : Json) : v.plain? = none ↔ v.Unprintable := by
  cases v with
  | null => exact ⟨nofun, nofun⟩
  | bool => exact ⟨nofun, nofun⟩
  | number => exact ⟨nofun, nofun⟩
  | text => exact ⟨nofun, nofun⟩
  | array items =>
    rw [plain?, Option.map_eq_none_iff, plainItems?_eq_none items]
    constructor
    · rintro ⟨item, hmem, h⟩
      exact .array hmem h
    · rintro (_ | ⟨hmem, h⟩)
      exact ⟨_, hmem, h⟩
  | object members =>
    rw [plain?]
    split
    · next hown => exact ⟨fun _ => .object hown, fun _ => rfl⟩
    · next hown => exact ⟨nofun, fun | .object h => absurd h hown⟩

theorem plainItems?_eq_none (items : List Json) :
    plainItems? items = none ↔ ∃ item ∈ items, item.Unprintable := by
  cases items with
  | nil => exact ⟨nofun, fun ⟨_, h, _⟩ => absurd h List.not_mem_nil⟩
  | cons item rest =>
    rw [plainItems?_cons, plain?_eq_none item, plainItems?_eq_none rest]
    simp only [List.mem_cons, exists_eq_or_imp]

end

theorem checkVersion_eq_ok :
    v.checkVersion = .ok () ↔ v.field? "version" = some (.text formatVersion) := by
  rw [checkVersion]
  cases v.field? "version" with
  | none => exact ⟨nofun, nofun⟩
  | some found =>
    rw [Option.some_inj]
    cases found with
    | text t =>
      simp only [plain?, Json.text.injEq]
      split
      · next h => exact ⟨fun _ => h, fun _ => rfl⟩
      · next h => exact ⟨nofun, fun ht => absurd ht h⟩
    | _ =>
      refine ⟨fun h => ?_, nofun⟩
      dsimp only at h
      split at h <;> cases h

theorem checkVersion_eq_error (h : v.checkVersion = .error e) :
    (∃ shown, e = .version shown) ∨
      e = .unprintableVersion ∧ ∃ found, v.field? "version" = some found ∧ found.Unprintable := by
  rw [checkVersion] at h
  cases hfound : v.field? "version" with
  | none =>
    rw [hfound] at h
    exact .inl ⟨_, (Except.error.inj h).symm⟩
  | some found =>
    rw [hfound] at h
    cases hshown : found.plain? with
    | none =>
      simp only [hshown] at h
      exact .inr ⟨(Except.error.inj h).symm, found, rfl, (plain?_eq_none found).1 hshown⟩
    | some shown =>
      simp only [hshown] at h
      split at h
      · split at h
        · cases h
        · exact .inl ⟨shown, (Except.error.inj h).symm⟩
      · exact .inl ⟨shown, (Except.error.inj h).symm⟩

theorem checkVersion_unprintable (hfound : v.field? "version" = some found)
    (h : found.Unprintable) : v.checkVersion = .error .unprintableVersion := by
  rw [checkVersion, hfound]
  simp only [(plain?_eq_none found).2 h]

end Json

/-- A draft of an error that is not in any text is complete if its message is not empty. -/
theorem Draft.build_unplaced {code : Code} {message : Text} (h : message ≠ []) :
    (Draft.unplaced code message).build =
      .ok { severity := .error, code, message, span := .point (Position.start.map .ofNat) } := by
  cases message with
  | nil => exact absurd rfl h
  | cons => rfl

namespace DocumentError

variable {e : DocumentError}

theorem diagnostic?_of_draft {code : Code} {message : Text}
    (h : e.draft? = some (.unplaced code message)) (hmessage : message ≠ []) :
    e.diagnostic? = some
      { severity := .error, code, message, span := .point (Position.start.map .ofNat) } := by
  rw [diagnostic?, h, Option.bind_some, Draft.build_unplaced hmessage]
  rfl

theorem diagnostic?_of_invalidTree {detail : Text} (h : e.draft? = some (.invalidTree detail)) :
    ∃ d, e.diagnostic? = some d ∧ d.code = .invalidTree ∧
      d.span = .point (Position.start.map .ofNat) :=
  ⟨_, diagnostic?_of_draft h (List.cons_ne_nil _ _), rfl, rfl⟩

theorem diagnostic?_eq_some (h : e ≠ .unprintableVersion) :
    ∃ d, e.diagnostic? = some d ∧ (d.code = .invalidTree ∨ d.code = .unsupportedVersion) ∧
      d.span = .point (Position.start.map .ofNat) := by
  have htree {detail : Text} (hdraft : e.draft? = some (.invalidTree detail)) :
      ∃ d, e.diagnostic? = some d ∧ (d.code = .invalidTree ∨ d.code = .unsupportedVersion) ∧
        d.span = .point (Position.start.map .ofNat) := by
    obtain ⟨d, hd, hcode, hspan⟩ := diagnostic?_of_invalidTree hdraft
    exact ⟨d, hd, .inl hcode, hspan⟩
  cases e with
  | malformed => exact htree rfl
  | notObject => exact htree rfl
  | version found =>
    exact ⟨_, diagnostic?_of_draft rfl (List.cons_ne_nil _ _), .inr rfl, rfl⟩
  | unprintableVersion => exact absurd rfl h
  | shape violation => exact htree rfl
  | notProgram => exact htree rfl

end DocumentError

/-- The text is an object whose version has no plain text. -/
def UnprintableVersion (t : Text) : Prop :=
  ∃ members found, Json.read? t = some (.object members) ∧
    members.lookup ("version" : Text) = some found ∧ found.Unprintable

/-- Reading a program fails without a text for the version only where the version has none. -/
theorem Program.ofDocument_unprintable {v : Json} :
    Program.ofDocument v = .error .unprintableVersion ↔
      ∃ members found, v = .object members ∧ members.lookup ("version" : Text) = some found ∧
        found.Unprintable := by
  constructor
  · intro h
    cases v with
    | object members =>
      rw [ofDocument] at h
      cases hversion : (Json.object members).checkVersion with
      | error e =>
        rw [hversion] at h
        obtain rfl := Except.error.inj h
        obtain ⟨shown, hshown⟩ | ⟨-, found, hfound, hnone⟩ := Json.checkVersion_eq_error hversion
        · cases hshown
        · exact ⟨members, found, rfl, hfound, hnone⟩
      | ok =>
        simp only [hversion, bind, Except.bind] at h
        split at h
        · cases h
        · split at h <;> cases h
    | _ => cases h
  · rintro ⟨members, found, rfl, hfound, hnone⟩
    have hversion : (Json.object members).field? "version" = some found := hfound
    rw [ofDocument, Json.checkVersion_unprintable hversion hnone]
    rfl

theorem Program.read_unprintable {t : Text} :
    Program.read t = .error .unprintableVersion ↔ UnprintableVersion t := by
  rw [read]
  cases hread : Json.read? t with
  | none =>
    refine ⟨nofun, ?_⟩
    rintro ⟨members, found, hmembers, -, -⟩
    rw [hread] at hmembers
    cases hmembers
  | some v =>
    refine Program.ofDocument_unprintable.trans ?_
    simp only [UnprintableVersion, hread, Option.some_inj]

/-- Every text is read as a program or reported in one diagnostic, of a code for trees and at the
first place, unless it is an object whose version has no plain text; that one is not reported. -/
theorem Program.read_reported (t : Text) :
    ((∃ p, Program.read t = .ok p) ∨
      (∃ e d, Program.read t = .error e ∧ e.diagnostic? = some d ∧
        (d.code = .invalidTree ∨ d.code = .unsupportedVersion) ∧
        d.span = .point (Position.start.map .ofNat)) ∨
      UnprintableVersion t) ∧
    (UnprintableVersion t ↔ ∃ e, Program.read t = .error e ∧ e.diagnostic? = none) := by
  have hnone : UnprintableVersion t ↔ ∃ e, Program.read t = .error e ∧ e.diagnostic? = none := by
    rw [← Program.read_unprintable]
    constructor
    · exact fun h => ⟨_, h, rfl⟩
    · rintro ⟨e, he, hreport⟩
      by_cases hne : e = .unprintableVersion
      · exact hne ▸ he
      · obtain ⟨d, hd, -⟩ := DocumentError.diagnostic?_eq_some hne
        rw [hd] at hreport
        cases hreport
  refine ⟨?_, hnone⟩
  cases hread : Program.read t with
  | ok p => exact .inl ⟨p, rfl⟩
  | error e =>
    refine .inr ?_
    by_cases he : e = .unprintableVersion
    · exact .inr (Program.read_unprintable.1 (hread.trans (congrArg _ he)))
    · obtain ⟨d, hd, hcode, hspan⟩ := DocumentError.diagnostic?_eq_some he
      exact .inl ⟨e, d, rfl, hd, hcode, hspan⟩

/-- A document whose version is an object with a member called as the way to write it. -/
theorem Program.read_unreported :
    ¬ ∀ t, (∃ p, Program.read t = .ok p) ∨
      ∃ e d, Program.read t = .error e ∧ e.diagnostic? = some d ∧
        (d.code = .invalidTree ∨ d.code = .unsupportedVersion) ∧
        d.span = .point (Position.start.map .ofNat) := by
  intro h
  have hread : (match Program.read "\x7b\"version\":\x7b\"toString\":1\x7d\x7d" with
      | .error .unprintableVersion => true
      | _ => false) = true := by
    decide +kernel
  obtain ⟨p, hp⟩ | ⟨e, d, he, hd, -⟩ := h "\x7b\"version\":\x7b\"toString\":1\x7d\x7d"
  · rw [hp] at hread
    cases hread
  · rw [he] at hread
    cases e with
    | unprintableVersion => cases hd
    | _ => cases hread

end BrookSyntax
