import BrookSyntax.Json.Writer
import BrookSyntax.Proofs.NumberText

namespace BrookSyntax

namespace Json

open CodeUnit

variable {t rest : Text} {u : CodeUnit}

theorem hexValue?_hexDigit {n : Nat} (h : n < 16) : hexValue? (hexDigit n) = some n := by
  revert n
  decide

theorem hexUnit?_hexEscape (u : CodeUnit) :
    hexUnit? (hexDigit (u.toNat / 4096 % 16)) (hexDigit (u.toNat / 256 % 16))
      (hexDigit (u.toNat / 16 % 16)) (hexDigit (u.toNat % 16)) = some u := by
  have hlt := u.toNat_lt
  have hsum : u.toNat / 4096 % 16 * 4096 + u.toNat / 256 % 16 * 256 + u.toNat / 16 % 16 * 16 +
      u.toNat % 16 = u.toNat := by omega
  have hdigit (n : Nat) : hexValue? (hexDigit (n % 16)) = some (n % 16) :=
    hexValue?_hexDigit (Nat.mod_lt n (by decide))
  simp only [hexUnit?, hdigit, Option.bind_eq_bind, Option.bind_some, hsum]
  exact congrArg some (UInt16.ofNat_toNat)

theorem readString_plain (hq : u ≠ quote) (hb : u ≠ backslash) (hc : ¬ u < 32) (rest : Text) :
    readString (u :: rest) = (readString rest).map (consFirst u) := by
  rw [readString.eq_def]
  simp only [if_neg hq, if_neg hb, if_neg hc]

theorem readString_short {v : CodeUnit} (hv : v ≠ of 'u') (h : shortEscape? v = some u)
    (rest : Text) : readString (backslash :: v :: rest) = (readString rest).map (consFirst u) := by
  have hq : backslash ≠ quote := by decide
  have hc : ¬ backslash < 32 := by decide
  rw [readString.eq_def]
  simp only [if_neg hq, if_neg hc, if_true, if_neg hv, h, Option.bind_some]

theorem readString_hexEscape (u : CodeUnit) (rest : Text) :
    readString (hexEscape u ++ rest) = (readString rest).map (consFirst u) := by
  have hq : backslash ≠ quote := by decide
  have hc : ¬ backslash < 32 := by decide
  have hescape : hexEscape u ++ rest = backslash :: of 'u' :: hexDigit (u.toNat / 4096 % 16) ::
      hexDigit (u.toNat / 256 % 16) :: hexDigit (u.toNat / 16 % 16) ::
      hexDigit (u.toNat % 16) :: rest := rfl
  rw [hescape, readString.eq_def]
  simp only [if_neg hq, if_neg hc, if_true, hexUnit?_hexEscape, Option.bind_some]

/-- A unit that is not written as half of a pair is read as itself. -/
theorem readString_escapeUnit (u : CodeUnit) (rest : Text) :
    readString (escapeUnit u ++ rest) = (readString rest).map (consFirst u) := by
  rw [escapeUnit]
  split
  · next h =>
    subst h
    exact readString_short (by decide) rfl rest
  split
  · next h =>
    subst h
    exact readString_short (by decide) rfl rest
  split
  · next h =>
    subst h
    exact readString_short (by decide) rfl rest
  split
  · next h =>
    subst h
    exact readString_short (by decide) rfl rest
  split
  · next h =>
    subst h
    exact readString_short (by decide) rfl rest
  split
  · next h =>
    subst h
    exact readString_short (by decide) rfl rest
  split
  · next h =>
    subst h
    exact readString_short (by decide) rfl rest
  split
  · exact readString_hexEscape u rest
  · next hq hb _ _ _ _ _ hc =>
    rw [Bool.or_eq_true, not_or, decide_eq_true_eq] at hc
    exact readString_plain hq hb hc.1 rest

theorem isSurrogate_of_high (h : u.isHighSurrogate) : u.isSurrogate := by
  rw [isHighSurrogate, Bool.and_eq_true, decide_eq_true_eq, decide_eq_true_eq] at h
  rw [isSurrogate, Bool.and_eq_true, decide_eq_true_eq, decide_eq_true_eq]
  exact ⟨h.1, UInt16.le_trans h.2 (by decide)⟩

theorem isSurrogate_of_low (h : u.isLowSurrogate) : u.isSurrogate := by
  rw [isLowSurrogate, Bool.and_eq_true, decide_eq_true_eq, decide_eq_true_eq] at h
  rw [isSurrogate, Bool.and_eq_true, decide_eq_true_eq, decide_eq_true_eq]
  exact ⟨UInt16.le_trans (by decide) h.1, h.2⟩

theorem readString_surrogate (h : u.isSurrogate) (rest : Text) :
    readString (u :: rest) = (readString rest).map (consFirst u) := by
  have hle : 0xD800 ≤ u := by
    rw [isSurrogate, Bool.and_eq_true, decide_eq_true_eq] at h
    exact h.1
  apply readString_plain
  · rintro rfl
    exact absurd hle (by decide)
  · rintro rfl
    exact absurd hle (by decide)
  · intro hlt
    rw [UInt16.lt_iff_toNat_lt] at hlt
    rw [UInt16.le_iff_toNat_le] at hle
    have hbounds : (32 : CodeUnit).toNat < (0xD800 : CodeUnit).toNat := by decide
    omega

theorem readString_escape (t rest : Text) :
    readString (escape t ++ quote :: rest) = some (t, rest) := by
  induction t using escape.induct with
  | case1 =>
    rw [escape, List.nil_append, readString.eq_def]
    exact if_pos rfl
  | case2 u =>
    rw [escape, readString_escapeUnit, readString.eq_def]
    simp only [if_true, Option.map_some, consFirst]
  | case3 u v t h ih =>
    obtain ⟨hu, hv⟩ := Bool.and_eq_true_iff.1 h
    rw [escape, if_pos h, List.cons_append, List.cons_append,
      readString_surrogate (isSurrogate_of_high hu), readString_surrogate (isSurrogate_of_low hv),
      ih]
    rfl
  | case4 u v t h ih =>
    rw [escape, if_neg h, List.append_assoc, readString_escapeUnit, ih]
    rfl

theorem writeText_append (t rest : Text) :
    writeText t ++ rest = quote :: (escape t ++ quote :: rest) := by
  rw [writeText, List.cons_append, List.cons_append, List.append_assoc]
  rfl

/-- Values whose numbers are finite and not negative zero, and whose objects have each key once. -/
def Proper : Json → Prop
  | null | bool _ | text _ => True
  | number x => x.isFinite ∧ (x.isZero → x.negative = false)
  | array items => AllProper items
  | object members => (members.map Prod.fst).Nodup ∧ MembersProper members
where
  AllProper : List Json → Prop
    | [] => True
    | item :: rest => item.Proper ∧ AllProper rest
  MembersProper : List (Text × Json) → Prop
    | [] => True
    | (_, value) :: rest => value.Proper ∧ MembersProper rest

end Json

/-- Everything that a layout adds between the parts is blank, but for the colons. -/
structure Json.Layout.IsBlank (layout : Json.Layout) : Prop where
  gap : ∀ level, ∀ u ∈ layout.gap level, Json.isBlank u
  colon : ∃ blanks, layout.colon = CodeUnit.of ':' :: blanks ∧ ∀ u ∈ blanks, Json.isBlank u

end BrookSyntax
