import Mathlib.Tactic.NormNum
import Mathlib.Tactic.Ring
import BrookSyntax.Binary64.Shortest

namespace BrookSyntax

namespace Binary64

variable {num den k m : Nat} {negative : Bool} {x y : Binary64} {d : Decimal}

theorem roundDiv_mul (hk : 0 < k) : roundDiv (num * k) (den * k) = roundDiv num den := by
  have hlt : den * k < 2 * (num % den * k) ↔ den < 2 * (num % den) := by
    rw [← Nat.mul_assoc]
    exact Nat.mul_lt_mul_right hk
  have heq : den * k = 2 * (num % den * k) ↔ den = 2 * (num % den) := by
    rw [← Nat.mul_assoc]
    exact Nat.mul_left_inj (Nat.ne_of_gt hk)
  simp only [roundDiv, Nat.mul_div_mul_right _ _ hk, Nat.mul_mod_mul_right, hlt, heq]

theorem roundDiv_multiple (hden : 0 < den) : roundDiv (m * den) den = m := by
  have hnot : ¬ (den < 2 * 0 ∨ (den = 2 * 0 ∧ m % 2 = 1)) := by omega
  rw [roundDiv, Nat.mul_mod_left, Nat.mul_div_cancel _ hden, if_neg hnot]

theorem roundRank_mul (hk : 0 < k) : roundRank (num * k) (den * k) = roundRank num den := by
  have hpow (n : Nat) : den * k * 2 ^ n = den * 2 ^ n * k := Nat.mul_right_comm _ _ _
  simp only [roundRank, Nat.mul_div_mul_right _ _ hk, hpow, roundDiv_mul hk]

theorem log2_mul_two_pow (h : m ≠ 0) (k : Nat) : (m * 2 ^ k).log2 = m.log2 + k := by
  have hpos : 0 < 2 ^ k := Nat.two_pow_pos k
  obtain ⟨hlow, hhigh⟩ := (Nat.log2_eq_iff h).1 rfl
  rw [Nat.log2_eq_iff (Nat.mul_ne_zero h (Nat.ne_of_gt hpos)), Nat.pow_add,
    show m.log2 + k + 1 = m.log2 + 1 + k by omega, Nat.pow_add _ (m.log2 + 1)]
  exact ⟨Nat.mul_le_mul_right _ hlow, Nat.mul_lt_mul_of_pos_right hhigh hpos⟩

theorem log2_sub_of_lt (h : m < 2 ^ 53) : m.log2 - 52 = 0 := by
  rcases Nat.eq_zero_or_pos m with rfl | hpos
  · rfl
  · have := (Nat.log2_lt (Nat.ne_of_gt hpos)).2 h
    omega

theorem roundRank_scaled (x : Binary64) : roundRank x.scaled 1 = x.rank := by
  rw [scaled]
  split
  · next hlt =>
    have hlog : x.rank.log2 - 52 = 0 := log2_sub_of_lt (by omega)
    have hround := roundDiv_multiple (m := x.rank) Nat.one_pos
    rw [Nat.mul_one] at hround
    simp only [roundRank, Nat.div_one, hlog, Nat.pow_zero, Nat.mul_one, hround]
    omega
  · next hge =>
    have hlog : ((x.rank % 2 ^ 52 + 2 ^ 52) * 2 ^ (x.rank / 2 ^ 52 - 1)).log2 - 52 =
        x.rank / 2 ^ 52 - 1 := by
      have hlog52 : (x.rank % 2 ^ 52 + 2 ^ 52).log2 = 52 :=
        (Nat.log2_eq_iff (by omega)).2 ⟨by omega, by omega⟩
      rw [log2_mul_two_pow (by omega), hlog52, Nat.add_sub_cancel_left]
    simp only [roundRank, Nat.div_one, hlog, Nat.one_mul]
    rw [roundDiv_multiple (Nat.two_pow_pos _)]
    omega

theorem roundRank_of_dvd (h : 2 ^ (m.log2 - 52) ∣ m) :
    roundRank m 1 = (m.log2 - 52) * 2 ^ 52 + m / 2 ^ (m.log2 - 52) := by
  have hround := roundDiv_multiple (m := m / 2 ^ (m.log2 - 52)) (Nat.two_pow_pos (m.log2 - 52))
  rw [Nat.div_mul_cancel h] at hround
  simp only [roundRank, Nat.div_one, Nat.one_mul, hround]

theorem div_log2_lt (m : Nat) : m / 2 ^ (m.log2 - 52) < 2 ^ 53 := by
  rw [Nat.div_lt_iff_lt_mul (Nat.two_pow_pos _), ← Nat.pow_add]
  apply Nat.lt_of_lt_of_le Nat.lt_log2_self
  exact Nat.pow_le_pow_right (by decide) (by omega)

theorem le_div_log2 (h : 2 ^ 52 ≤ m) : 2 ^ 52 ≤ m / 2 ^ (m.log2 - 52) := by
  have hne : m ≠ 0 := by omega
  have hlog : 52 ≤ m.log2 := (Nat.le_log2 hne).2 h
  rw [Nat.le_div_iff_mul_le (Nat.two_pow_pos _), ← Nat.pow_add, Nat.add_sub_cancel' hlog]
  exact Nat.log2_self_le hne

theorem roundRank_lt (h : 2 ^ (m.log2 - 52) ∣ m) (hm : m.log2 ≤ 52 + 2045) :
    roundRank m 1 < infiniteRank := by
  have hquotient := div_log2_lt m
  have hshift : (m.log2 - 52) * 2 ^ 52 ≤ 2045 * 2 ^ 52 := Nat.mul_le_mul_right _ (by omega)
  rw [roundRank_of_dvd h, infiniteRank]
  omega

/-- A multiple of the unit with no more than 53 significant bits is the magnitude of its rank. -/
theorem scaled_ofRank_roundRank (h : 2 ^ (m.log2 - 52) ∣ m) (hm : m.log2 ≤ 52 + 2045) :
    (ofRank negative (roundRank m 1)).scaled = m := by
  have hrank : (ofRank negative (roundRank m 1)).rank = roundRank m 1 :=
    Nat.min_eq_left (Nat.le_of_lt (roundRank_lt h hm))
  rw [scaled, hrank, roundRank_of_dvd h]
  rcases Nat.lt_or_ge m (2 ^ 52) with hlt | hge
  · rw [log2_sub_of_lt (by omega), Nat.pow_zero, Nat.div_one, Nat.zero_mul, Nat.zero_add,
      if_pos hlt]
  · have hlow := le_div_log2 hge
    have hhigh := div_log2_lt m
    have hcancel := Nat.div_mul_cancel h
    generalize m / 2 ^ (m.log2 - 52) = quotient at hlow hhigh hcancel
    generalize m.log2 - 52 = shift at hcancel
    have hmod : (shift * 2 ^ 52 + quotient) % 2 ^ 52 = quotient - 2 ^ 52 := by omega
    have hexp : (shift * 2 ^ 52 + quotient) / 2 ^ 52 = shift + 1 := by omega
    rw [if_neg (by omega), hmod, hexp, Nat.sub_add_cancel hlow, Nat.add_sub_cancel, hcancel]

/-- A number is rounded by its quotient. -/
theorem ofRatio_mul (hk : 0 < k) :
    ofRatio negative (num * k) (den * k) = ofRatio negative num den := by
  rw [ofRatio, Nat.mul_right_comm, roundRank_mul hk, ofRatio]

theorem ofRatio_zero (hden : 0 < den) : ofRatio negative 0 den = ofRank negative 0 := by
  have h := roundDiv_multiple (m := 0) hden
  rw [Nat.zero_mul] at h
  simp only [ofRatio, roundRank, Nat.zero_mul, Nat.zero_div, Nat.log2_zero, Nat.zero_sub,
    Nat.pow_zero, Nat.mul_one, h]

theorem ofRatio_tiny (h : 2 * (num * 2 ^ 1074) < den) :
    ofRatio negative num den = ofRank negative 0 := by
  have hdiv : num * 2 ^ 1074 / den = 0 := Nat.div_eq_of_lt (by omega)
  have hmod : num * 2 ^ 1074 % den = num * 2 ^ 1074 := Nat.mod_eq_of_lt (by omega)
  simp only [ofRatio, roundRank, roundDiv, hdiv, Nat.log2_zero, Nat.zero_sub, Nat.pow_zero,
    Nat.mul_one, hmod]
  rw [if_neg (by omega), Nat.zero_mul]

theorem le_roundDiv (num den : Nat) : num / den ≤ roundDiv num den := by
  rw [roundDiv]
  split
  · exact Nat.le_succ _
  · exact Nat.le_refl _

theorem le_roundRank {n : Nat} (h : 2 ^ (n + 52) ≤ m) : (n + 1) * 2 ^ 52 ≤ roundRank m 1 := by
  have hne : m ≠ 0 := Nat.ne_of_gt (Nat.lt_of_lt_of_le (Nat.two_pow_pos _) h)
  have hlog : n + 52 ≤ m.log2 := (Nat.le_log2 hne).2 h
  obtain ⟨shift, hshift⟩ := Nat.exists_eq_add_of_le' (Nat.le_trans (Nat.le_add_left 52 n) hlog)
  have hquotient : 2 ^ 52 ≤ roundDiv m (2 ^ shift) := by
    apply Nat.le_trans _ (le_roundDiv m (2 ^ shift))
    rw [Nat.le_div_iff_mul_le (Nat.two_pow_pos _), ← Nat.pow_add, Nat.add_comm, ← hshift]
    exact Nat.log2_self_le hne
  have hle : n ≤ shift := by omega
  have hmul := Nat.mul_le_mul_right (2 ^ 52) hle
  simp only [roundRank, Nat.div_one, Nat.one_mul, hshift, Nat.add_sub_cancel]
  rw [Nat.add_mul, Nat.one_mul]
  exact Nat.add_le_add hmul hquotient

theorem ofRank_of_le (h : infiniteRank ≤ k) :
    ofRank negative k = ofRank negative infiniteRank := by
  have hmin : min k (2047 * 2 ^ 52) = min infiniteRank (2047 * 2 ^ 52) := by
    rw [infiniteRank] at h ⊢
    rw [Nat.min_eq_right h, Nat.min_self]
  simp only [ofRank, hmin]

theorem infiniteRank_le_roundRank {n : Nat} (hn : 1024 ≤ n) (h : 2 ^ (n + 1074) ≤ m) :
    infiniteRank ≤ roundRank m 1 := by
  have hle : 2047 ≤ n + 1022 + 1 := Nat.add_le_add_right hn 1023
  exact Nat.le_trans (Nat.mul_le_mul_right (2 ^ 52) hle) (le_roundRank h)

theorem ofRatio_huge {n : Nat} (hn : 1024 ≤ n) (h : 2 ^ n ≤ num) :
    ofRatio negative num 1 = ofRank negative infiniteRank :=
  ofRank_of_le <| infiniteRank_le_roundRank hn <|
    calc 2 ^ (n + 1074) = 2 ^ n * 2 ^ 1074 := Nat.pow_add 2 n 1074
      _ ≤ num * 2 ^ 1074 := Nat.mul_le_mul_right _ h

theorem two_pow_le_ten_pow {n : Nat} (h : n ≤ 3 * m) : 2 ^ n ≤ 10 ^ m :=
  calc 2 ^ n ≤ 2 ^ (3 * m) := Nat.pow_le_pow_right (by decide) h
    _ = 8 ^ m := Nat.pow_mul 2 3 m
    _ ≤ 10 ^ m := Nat.pow_le_pow_left (by decide) m

/-- A decimal is rounded by its quotient, also where the quotient is not worked out. -/
theorem ofDecimal_eq (negative : Bool) (digits : Nat) (exponent : Int) :
    ofDecimal negative digits exponent =
      ofRatio negative (digits * 10 ^ exponent.toNat) (10 ^ (-exponent).toNat) := by
  rw [ofDecimal]
  split
  · next h =>
    rw [h, Nat.zero_mul]
    exact (ofRatio_zero (Nat.pow_pos (by decide))).symm
  split
  · next hdigits hbig =>
    rw [show (-exponent).toNat = 0 by omega, Nat.pow_zero]
    have hpow := two_pow_le_ten_pow (Nat.le_refl (3 * exponent.toNat))
    have hpos : 0 < digits := Nat.pos_of_ne_zero hdigits
    have hle := Nat.le_trans hpow (Nat.le_mul_of_pos_left _ hpos)
    exact (ofRatio_huge (by omega) hle).symm
  split
  · next hdigits hbig hsmall =>
    rw [show exponent.toNat = 0 by omega, Nat.pow_zero, Nat.mul_one]
    have hpow := two_pow_le_ten_pow (n := digits.log2 + 1 + 1074 + 1) (m := (-exponent).toNat)
      (by omega)
    have hlt : digits < 2 ^ (digits.log2 + 1) := Nat.lt_log2_self
    symm
    apply ofRatio_tiny
    rw [Nat.pow_succ, Nat.pow_add] at hpow
    have hmul := Nat.mul_lt_mul_of_pos_right hlt (Nat.two_pow_pos 1074)
    omega
  split
  · next hpos => rw [show (-exponent).toNat = 0 by omega, Nat.pow_zero]
  · next hneg => rw [show exponent.toNat = 0 by omega, Nat.pow_zero, Nat.mul_one]

/-- Zeros at the end of the digits count as much as the exponent. -/
theorem ofDecimal_mul_pow (negative : Bool) (digits k : Nat) (exponent : Int) :
    ofDecimal negative (digits * 10 ^ k) exponent = ofDecimal negative digits (exponent + k) := by
  rw [ofDecimal_eq, ofDecimal_eq]
  rcases Int.le_total 0 exponent with hpos | hneg
  · rw [show (-exponent).toNat = 0 by omega, show (-(exponent + k)).toNat = 0 by omega,
      show (exponent + k).toNat = k + exponent.toNat by omega, Nat.pow_add, Nat.mul_assoc]
  · rw [show exponent.toNat = 0 by omega, Nat.pow_zero, Nat.mul_one]
    rcases Int.le_total 0 (exponent + k) with hsum | hsum
    · obtain ⟨n, hn⟩ : ∃ n, k = n + (-exponent).toNat := ⟨(exponent + k).toNat, by omega⟩
      rw [show (-(exponent + k)).toNat = 0 by omega, show (exponent + k).toNat = n by omega,
        hn, Nat.pow_add, ← Nat.mul_assoc]
      have h := @ofRatio_mul (digits * 10 ^ n) 1 (10 ^ (-exponent).toNat) negative
        (Nat.pow_pos (by decide))
      rw [Nat.one_mul] at h
      rw [h, Nat.pow_zero]
    · rw [show (exponent + k).toNat = 0 by omega, Nat.pow_zero, Nat.mul_one,
        show (-exponent).toNat = (-(exponent + k)).toNat + k by omega, Nat.pow_add]
      exact ofRatio_mul (Nat.pow_pos (by decide))

theorem ofDecimal_negative (negative : Bool) (digits : Nat) (exponent : Int) :
    (ofDecimal negative digits exponent).negative = negative := by
  rw [ofDecimal_eq]
  rfl

theorem ofDecimal_rank (negative : Bool) (digits : Nat) (exponent : Int) :
    (ofDecimal negative digits exponent).rank = (ofDecimal false digits exponent).rank := by
  rw [ofDecimal_eq, ofDecimal_eq]
  rfl

theorem ext (hn : x.negative = y.negative) (hr : x.rank = y.rank) : x = y := by
  cases x
  cases y
  cases hn
  cases hr
  rfl

theorem ofRatio_unit (negative : Bool) (m : Nat) :
    ofRatio negative m (2 ^ 1074) = ofRank negative (roundRank m 1) := by
  have h := @roundRank_mul m 1 (2 ^ 1074) (Nat.two_pow_pos _)
  rw [Nat.one_mul] at h
  exact congrArg (ofRank negative) h

theorem ofDecimal_halves (negative : Bool) (m k : Nat) :
    ofDecimal negative (m * 5 ^ k) (-(k : Int)) = ofRatio negative m (2 ^ k) := by
  rw [ofDecimal_eq, show (-(k : Int)).toNat = 0 by omega, show (- -(k : Int)).toNat = k by omega,
    Nat.pow_zero, Nat.mul_one, show 10 = 2 * 5 from rfl, Nat.mul_pow]
  exact ofRatio_mul (Nat.pow_pos (by decide))

theorem exact_readsBack (x : Binary64) : x.readsBack x.exact := by
  have hexact : ofDecimal false x.exact.digits x.exact.exponent = ofRank false x.rank :=
    calc ofDecimal false x.exact.digits x.exact.exponent
      _ = ofRatio false x.scaled (2 ^ 1074) := ofDecimal_halves false x.scaled 1074
      _ = ofRank false (roundRank x.scaled 1) := ofRatio_unit false x.scaled
      _ = ofRank false x.rank := by rw [roundRank_scaled]
  rw [readsBack, hexact, beq_iff_eq]
  exact Nat.min_eq_left x.rank_le

theorem withDigits?_readsBack {count : Nat} (h : x.withDigits? count = some d) : x.readsBack d := by
  unfold withDigits? at h
  extract_lets exponent digits below above at h
  clear_value below above
  split at h
  · next hbelow habove =>
    cases h
    split
    · exact habove
    · exact hbelow
  · next hbelow _ =>
    cases h
    exact hbelow
  · next _ habove =>
    cases h
    exact habove
  · cases h

/-- The shortest decimal of a number is rounded back to it. -/
theorem shortest_readsBack (x : Binary64) : x.readsBack x.shortest := by
  rw [shortest]
  cases h : (List.range 17).findSome? fun n => x.withDigits? (n + 1) with
  | none => exact x.exact_readsBack
  | some d =>
    obtain ⟨n, -, hn⟩ := List.exists_of_findSome?_eq_some h
    exact withDigits?_readsBack hn

theorem dvd_log2_mul_two_pow {n : Nat} (h : 2 ^ (n.log2 - 52) ∣ n) (k : Nat) :
    2 ^ ((n * 2 ^ k).log2 - 52) ∣ n * 2 ^ k := by
  by_cases hn : n = 0
  · rw [hn, Nat.zero_mul]
    exact Nat.dvd_zero _
  rw [log2_mul_two_pow hn]
  by_cases hlog : 52 ≤ n.log2
  · rw [show n.log2 + k - 52 = n.log2 - 52 + k by omega, Nat.pow_add]
    exact Nat.mul_dvd_mul_right h _
  · exact Nat.dvd_trans (Nat.pow_dvd_pow 2 (by omega)) (Nat.dvd_mul_left _ n)

theorem dvd_of_le {n : Nat} (h : n ≤ 2 ^ 53) : 2 ^ (n.log2 - 52) ∣ n := by
  rcases Nat.lt_or_eq_of_le h with hlt | rfl
  · rw [log2_sub_of_lt hlt]
    exact Nat.one_dvd n
  · rw [Nat.log2_two_pow]
    exact Nat.pow_dvd_pow 2 (by decide)

theorem log2_le_of_le {n k : Nat} (h : n ≤ 2 ^ 53) : (n * 2 ^ k).log2 ≤ 53 + k := by
  by_cases hn : n = 0
  · rw [hn, Nat.zero_mul]
    exact Nat.zero_le _
  · rw [log2_mul_two_pow hn]
    have hlt : n < 2 ^ 54 := by omega
    have := (Nat.log2_lt hn).2 hlt
    omega

theorem mul_tdiv_two_pow (i : Int) (k : Nat) : (i * 2 ^ k).tdiv (2 ^ k) = i :=
  Int.mul_tdiv_cancel i (Int.ne_of_gt (Int.pow_pos (by decide)))

theorem exists_signed {k : Nat} (h : 2 ^ k ∣ x.scaled) : ∃ i : Int, x.signed = i * 2 ^ k := by
  obtain ⟨q, hq⟩ := h
  have hcast : ((x.scaled : Nat) : Int) = q * 2 ^ k := by
    rw [hq, Nat.mul_comm, Int.natCast_mul, Int.natCast_pow]
    rfl
  rw [signed, hcast]
  split
  · exact ⟨-q, (Int.neg_mul _ _).symm⟩
  · exact ⟨q, rfl⟩

theorem signed_of_toInt? {i : Int} (h : x.toInt? = some i) :
    x.isFinite ∧ x.signed = i * 2 ^ 1074 := by
  rw [toInt?] at h
  split at h
  · next hwhole =>
    obtain ⟨hfinite, hmod⟩ := Bool.and_eq_true_iff.1 hwhole
    obtain ⟨j, hj⟩ := exists_signed (Nat.dvd_of_mod_eq_zero (beq_iff_eq.1 hmod))
    rw [trunc, hj, mul_tdiv_two_pow] at h
    cases h
    exact ⟨hfinite, hj⟩
  · cases h

theorem toInt?_ofNat {n : Nat} (h : n ≤ 2 ^ 53) : (ofNat n).toInt? = some (n : Int) := by
  have hdvd := dvd_log2_mul_two_pow (dvd_of_le h) 1074
  have hlog : (n * 2 ^ 1074).log2 ≤ 52 + 2045 := Nat.le_trans (log2_le_of_le h) (by decide)
  have hscaled : (ofNat n).scaled = n * 2 ^ 1074 := scaled_ofRank_roundRank hdvd hlog
  have hrank : (ofNat n).rank < infiniteRank :=
    Nat.lt_of_le_of_lt (Nat.min_le_left _ _) (roundRank_lt hdvd hlog)
  have hwhole : (ofNat n).isWhole := by
    rw [isWhole, hscaled, isFinite, Nat.mul_mod_left, decide_eq_true hrank]
    rfl
  have hsigned : (ofNat n).signed = (n : Int) * 2 ^ 1074 := by
    have hcast : ((ofNat n).scaled : Int) = (n : Int) * ((2 ^ 1074 : Nat) : Int) := by
      rw [hscaled, Int.natCast_mul]
    exact hcast.trans (congrArg _ (Int.natCast_pow 2 1074))
  have htrunc : (ofNat n).trunc = n := by
    rw [trunc, hsigned, mul_tdiv_two_pow]
  rw [toInt?, if_pos hwhole, htrunc]

end Binary64

end BrookSyntax
