import BrookSyntax.Diagnostic.Format
import BrookSyntax.Proofs.NumberText
import BrookSyntax.Proofs.Tokens

namespace BrookSyntax

open CodeUnit

theorem CodeUnit.of_digitValue {u : CodeUnit} (h : u.isDigit) :
    Text.digitValue u < 10 ∧ of (Text.digitValue u).digitChar = u := by
  obtain ⟨hlow, hhigh⟩ := (isDigit_iff u).1 h
  have hlt : Text.digitValue u < 10 := by
    rw [Text.digitValue]
    omega
  have hall : ∀ k < 10, of k.digitChar = UInt16.ofNat (48 + k) := by decide
  refine ⟨hlt, (hall _ hlt).trans ?_⟩
  rw [Text.digitValue, Nat.add_sub_cancel' hlow, UInt16.ofNat_toNat]

variable {t : Text}

theorem IsSignificant.append (h : IsSignificant t) {u : Text} (hu : ∀ v ∈ u, v.isDigit) :
    IsSignificant (t ++ u) where
  ne_nil := List.append_ne_nil_of_left_ne_nil h.ne_nil u
  digits := List.forall_mem_append.2 ⟨h.digits, hu⟩
  nonzero := by
    cases t with
    | nil => exact absurd rfl h.ne_nil
    | cons v rest => exact h.nonzero

theorem IsSignificant.init {u : CodeUnit} (h : IsSignificant (t ++ [u])) (ht : t ≠ []) :
    IsSignificant t where
  ne_nil := ht
  digits v hv := h.digits v (List.mem_append_left _ hv)
  nonzero := by
    cases t with
    | nil => exact absurd rfl ht
    | cons v rest => exact h.nonzero

/-- Digits that start with another one than zero are the digits of the number that they write. -/
theorem IsSignificant.ofNat_toNat (h : IsSignificant t) : 0 < t.toNat ∧ Text.ofNat t.toNat = t := by
  induction hn : t.length generalizing t with
  | zero => exact absurd (List.length_eq_zero_iff.1 hn) h.ne_nil
  | succ n ih =>
    obtain ⟨init, u, rfl⟩ : ∃ (init : Text) (u : CodeUnit), t = init ++ [u] :=
      ⟨t.dropLast, t.getLast h.ne_nil, (List.dropLast_concat_getLast h.ne_nil).symm⟩
    obtain ⟨hu, hof⟩ := of_digitValue (h.digits u (List.mem_append_right _ List.mem_cons_self))
    have htoNat : Text.toNat (init ++ [u]) = init.toNat * 10 + Text.digitValue u := by
      rw [Text.toNat, List.foldl_append]
      rfl
    rw [htoNat]
    by_cases hinit : init = []
    · subst hinit
      have hzero : Text.toNat [] * 10 + Text.digitValue u = Text.digitValue u := Nat.zero_add _
      rw [hzero, Text.ofNat_of_lt hu, hof]
      refine ⟨Nat.pos_of_ne_zero fun hz => h.nonzero ?_, rfl⟩
      rw [← hof, hz]
      rfl
    · rw [List.length_append, List.length_singleton, Nat.add_right_cancel_iff] at hn
      obtain ⟨hpos, heq⟩ := ih (h.init hinit) hn
      have hdiv : (init.toNat * 10 + Text.digitValue u) / 10 = init.toNat := by omega
      have hmod : (init.toNat * 10 + Text.digitValue u) % 10 = Text.digitValue u := by omega
      exact ⟨by omega, by rw [Text.ofNat_of_le (by omega), hdiv, hmod, heq, hof]⟩

namespace Binary64

variable {n : Nat}

theorem ofNat_negative (n : Nat) : (ofNat n).negative = false := rfl

theorem ofDecimal_nat (m e : Nat) : ofDecimal false m (e : Int) = ofNat (m * 10 ^ e) := by
  rw [ofDecimal_eq, Int.toNat_natCast, show (-(e : Int)).toNat = 0 by omega, Nat.pow_zero, ofNat]

theorem ofNat_injective {m : Nat} (hn : n ≤ 2 ^ 53) (hm : m ≤ 2 ^ 53)
    (h : (ofNat m).rank = (ofNat n).rank) : m = n := by
  have heq : ofNat m = ofNat n := ext ((ofNat_negative m).trans (ofNat_negative n).symm) h
  have hint := toInt?_ofNat hm
  rw [heq, toInt?_ofNat hn] at hint
  exact (Int.natCast_inj.1 (Option.some.inj hint)).symm

theorem signed_ofNat (h : n ≤ 2 ^ 53) : (ofNat n).signed = (n : Int) * 2 ^ 1074 :=
  (signed_of_toInt? (toInt?_ofNat h)).2

theorem natCast_mul_two_pow (n k : Nat) : ((n * 2 ^ k : Nat) : Int) = (n : Int) * 2 ^ k :=
  (Int.natCast_mul _ _).trans (congrArg _ (Int.natCast_pow 2 k))

theorem scaled_ofNat (h : n ≤ 2 ^ 53) : (ofNat n).scaled = n * 2 ^ 1074 := by
  have hsigned := signed_ofNat h
  rw [signed, ofNat_negative, if_neg Bool.false_ne_true] at hsigned
  exact Int.natCast_inj.1 (hsigned.trans (natCast_mul_two_pow n 1074).symm)

theorem isZero_ofNat (hpos : 0 < n) (h : n ≤ 2 ^ 53) : (ofNat n).isZero = false := by
  rw [isZero, beq_eq_false_iff_ne]
  intro hzero
  have hscaled := scaled_ofNat h
  rw [scaled, hzero, if_pos (Nat.two_pow_pos 52)] at hscaled
  exact absurd hscaled (Nat.ne_of_lt (Nat.mul_pos hpos (Nat.two_pow_pos 1074)))

theorem decimalPoint_ofNat (hpos : 0 < n) (h : n ≤ 2 ^ 53) :
    (ofNat n).decimalPoint = digitCount n := by
  rw [decimalPoint, scaled_ofNat h, if_pos (Nat.le_mul_of_pos_left _ hpos),
    Nat.mul_div_cancel _ (Nat.two_pow_pos 1074)]

theorem scaled_digits (h : n ≤ 2 ^ 53) (e : Nat) :
    (ofNat n).scaled * 10 ^ (-(e : Int)).toNat / (2 ^ 1074 * 10 ^ (e : Int).toNat) =
      n / 10 ^ e := by
  rw [scaled_ofNat h, Int.toNat_neg_natCast, Int.toNat_natCast, Nat.pow_zero, Nat.mul_one,
    ← Nat.div_div_eq_div_mul, Nat.mul_div_cancel _ (Nat.two_pow_pos 1074)]

/-- A decimal that is tried with no more digits than the number has is a multiple of a power of ten,
one of the two next to the number. -/
theorem withDigits?_ofNat (hpos : 0 < n) (h : n ≤ 2 ^ 53) {count e : Nat} {d : Decimal}
    (hcount : count + e = digitCount n) (hd : (ofNat n).withDigits? count = some d) :
    d.exponent = (e : Int) ∧ d.digits ≤ n / 10 ^ e + 1 := by
  have hexponent : (ofNat n).decimalPoint - (count : Int) = (e : Int) := by
    rw [decimalPoint_ofNat hpos h]
    omega
  rw [withDigits?, hexponent] at hd
  simp only [scaled_digits h] at hd
  split at hd
  · cases hd
    split
    · exact ⟨rfl, Nat.le_refl _⟩
    · exact ⟨rfl, Nat.le_succ _⟩
  · cases hd
    exact ⟨rfl, Nat.le_succ _⟩
  · cases hd
    exact ⟨rfl, Nat.le_refl _⟩
  · cases hd

theorem withDigits?_digitCount (hpos : 0 < n) (h : n ≤ 2 ^ 53) :
    (ofNat n).withDigits? (digitCount n) ≠ none := by
  have hexponent : (ofNat n).decimalPoint - (digitCount n : Int) = ((0 : Nat) : Int) := by
    rw [decimalPoint_ofNat hpos h, Int.sub_self]
    rfl
  have hback : (ofNat n).readsBack ⟨n / 10 ^ 0, ((0 : Nat) : Int)⟩ = true := by
    rw [readsBack, ofDecimal_nat, Nat.pow_zero, Nat.mul_one, Nat.div_one, beq_self_eq_true]
  intro hnone
  rw [withDigits?, hexponent] at hnone
  simp only [scaled_digits h, hback] at hnone
  split at hnone <;> simp_all

theorem findSome?_range {α : Type} {f : Nat → Option α} {m k : Nat} (hm : m < k)
    (h : f m ≠ none) : ∃ i ≤ m, ∃ a, f i = some a ∧ (List.range k).findSome? f = some a := by
  obtain ⟨l, rfl⟩ := Nat.exists_eq_add_of_lt hm
  have hsome : ((List.range (m + 1)).findSome? f).isSome :=
    List.findSome?_isSome_iff.2 ⟨m, List.self_mem_range_succ, Option.isSome_iff_ne_none.2 h⟩
  obtain ⟨a, ha⟩ := Option.isSome_iff_exists.1 hsome
  obtain ⟨i, hi, hfi⟩ := List.exists_of_findSome?_eq_some ha
  refine ⟨i, Nat.le_of_lt_succ (List.mem_range.1 hi), a, hfi, ?_⟩
  rw [show m + l + 1 = m + 1 + l by omega, List.range_add, List.findSome?_append, ha]
  rfl

/-- The shortest decimal of a natural number is the number itself. -/
theorem shortest_ofNat (hpos : 0 < n) (h : n ≤ 2 ^ 52) :
    ∃ e : Nat, (ofNat n).shortest.exponent = e ∧ (ofNat n).shortest.digits * 10 ^ e = n := by
  have h53 : n ≤ 2 ^ 53 := by omega
  have hcount : digitCount n ≤ 16 :=
    (Nat.length_toDigits_le_iff (by decide) (by decide)).2 (by omega)
  have hcount_pos : 0 < digitCount n := List.length_pos_iff.2 Nat.toDigits_ne_nil
  have hall := withDigits?_digitCount hpos h53
  rw [← Nat.sub_add_cancel hcount_pos] at hall
  obtain ⟨i, hi, d, hd, hfirst⟩ := findSome?_range (k := 17)
    (f := fun k => (ofNat n).withDigits? (k + 1)) (by omega) hall
  have hshortest : (ofNat n).shortest = d := by rw [shortest, hfirst, Option.getD_some]
  obtain ⟨e, he⟩ := Nat.exists_eq_add_of_le (show i + 1 ≤ digitCount n by omega)
  obtain ⟨hexponent, hdigits⟩ := withDigits?_ofNat hpos h53 he.symm hd
  -- The decimal is at most twice the number, so that rounding keeps it as it is.
  have hpow : 10 ^ e ≤ n := by
    rcases Nat.eq_zero_or_pos e with rfl | he_pos
    · exact hpos
    · refine Nat.le_of_not_lt fun hlt => ?_
      have := (Nat.length_toDigits_le_iff (b := 10) (by decide) he_pos).2 hlt
      rw [digitCount] at he
      omega
  have hle : d.digits * 10 ^ e ≤ 2 ^ 53 := by
    have hmul := Nat.mul_le_mul_right (10 ^ e) hdigits
    rw [Nat.add_mul, Nat.one_mul] at hmul
    have := Nat.div_mul_le_self n (10 ^ e)
    omega
  have hback := beq_iff_eq.1 (ofNat n).shortest_readsBack
  rw [hshortest, hexponent, ofDecimal_nat] at hback
  rw [hshortest]
  exact ⟨e, hexponent, ofNat_injective h53 hle hback⟩

theorem digitsText_whole {k : Nat} (h : t.length + k ≤ 21) :
    digitsText t (t.length + k : Nat) = t ++ List.replicate k (CodeUnit.of '0') := by
  rw [digitsText, if_pos (by omega), Int.toNat_natCast, Nat.add_sub_cancel_left]

theorem text_ofNat (hpos : 0 < n) (h : n ≤ 2 ^ 52) : (ofNat n).text = Text.ofNat n := by
  have h53 : n ≤ 2 ^ 53 := by omega
  obtain ⟨e, hexponent, hdigits⟩ := shortest_ofNat hpos h
  have hzero := isZero_ofNat hpos h53
  obtain ⟨hshown, k, hk, hpoint⟩ := layout_spec _ (shortest_digits_pos hzero)
  rw [hexponent, Int.add_assoc, ← Int.natCast_add, ← Int.natCast_add] at hpoint
  have hwritten : Text.ofNat n =
      (layout (ofNat n).shortest).1 ++ List.replicate (k + e) (CodeUnit.of '0') := by
    have hzeros : ∀ u ∈ List.replicate (k + e) (CodeUnit.of '0'), u.isDigit := by
      intro u hu
      rw [List.eq_of_mem_replicate hu]
      rfl
    have heq := (hshown.append hzeros).ofNat_toNat.2
    rw [Text.toNat_append, Text.toNat_zeros, List.length_replicate, Nat.add_zero, Nat.pow_add,
      ← Nat.mul_assoc, ← hk, hdigits] at heq
    exact heq
  have hlen : (layout (ofNat n).shortest).1.length + (k + e) ≤ 21 := by
    have hcount : (Text.ofNat n).length ≤ 16 := by
      rw [Text.ofNat, List.length_map]
      exact (Nat.length_toDigits_le_iff (by decide) (by decide)).2 (by omega)
    rw [hwritten, List.length_append, List.length_replicate] at hcount
    omega
  rw [text_of_nonzero hzero (signed_of_toInt? (toInt?_ofNat h53)).1, ofNat_negative,
    if_neg Bool.false_ne_true, List.nil_append, hpoint, digitsText_whole hlen, hwritten]

theorem signed_neg (x : Binary64) : (-x).signed = -x.signed := by
  change (neg x).signed = -x.signed
  have hscaled : (neg x).scaled = x.scaled := rfl
  rw [signed, signed, hscaled, neg]
  cases x.negative
  · rfl
  · exact (Int.neg_neg _).symm

theorem ofSigned_natCast (n : Nat) : ofSigned ((n : Int) * 2 ^ 1074) = ofNat n := by
  have hnonneg : ¬ ((n * 2 ^ 1074 : Nat) : Int) < 0 := Int.not_lt.2 (Int.natCast_nonneg _)
  rw [← natCast_mul_two_pow, ofSigned, Int.natAbs_natCast, decide_eq_false hnonneg]
  rfl

theorem ofNat_sub {m : Nat} (hle : m ≤ n) (h : n ≤ 2 ^ 53) : ofNat n - ofNat m = ofNat (n - m) := by
  have hm : m ≤ 2 ^ 53 := Nat.le_trans hle h
  have hfinite := (signed_of_toInt? (toInt?_ofNat h)).1
  have hfinite' : (-ofNat m).isFinite := (signed_of_toInt? (toInt?_ofNat hm)).1
  have hsum : (ofNat n).signed + (-ofNat m).signed = ((n - m : Nat) : Int) * 2 ^ 1074 := by
    rw [signed_neg, signed_ofNat h, signed_ofNat hm, ← Int.sub_eq_add_neg, ← Int.sub_mul,
      Int.natCast_sub hle]
  change add (ofNat n) (-ofNat m) = ofNat (n - m)
  rw [add, hfinite, hfinite', hsum, ofSigned_natCast]
  rfl

end Binary64

theorem Text.blanksFor_ofNat {n : Nat} (h : n ≤ maxTextLength) :
    blanksFor (.ofNat n) = .ok (blanks n) := by
  have hint := Binary64.toInt?_ofNat (Nat.le_trans h (by decide))
  obtain ⟨hfinite, hsigned⟩ := Binary64.signed_of_toInt? hint
  have htrunc : (Binary64.ofNat n).trunc = n := by
    rw [Binary64.trunc, hsigned, Binary64.mul_tdiv_two_pow]
  rw [blanksFor, htrunc, hfinite, if_neg (by simp), if_neg (by omega), Int.toNat_natCast]

end BrookSyntax
