import BrookSyntax.Json.Reader
import BrookSyntax.Proofs.Rounding

namespace BrookSyntax

open CodeUnit

theorem CodeUnit.of_digitChar {n : Nat} (h : n < 10) :
    (of n.digitChar).isDigit ∧ Text.digitValue (of n.digitChar) = n ∧
      (of n.digitChar = of '0' → n = 0) := by
  revert n
  decide

namespace Text

variable {t u : Text} {n k : Nat}

theorem toNat_foldl (t : Text) (n : Nat) :
    t.foldl (fun n u => n * 10 + digitValue u) n = n * 10 ^ t.length + t.toNat := by
  induction t generalizing n with
  | nil => rw [List.foldl_nil, List.length_nil, Nat.pow_zero, Nat.mul_one]; rfl
  | cons u rest ih =>
    rw [toNat, List.foldl_cons, List.foldl_cons, ih, ih (0 * 10 + digitValue u), List.length_cons,
      Nat.pow_succ]
    ring

theorem toNat_append (t u : Text) : toNat (t ++ u) = t.toNat * 10 ^ u.length + u.toNat := by
  rw [toNat, List.foldl_append, toNat_foldl]
  rfl

theorem toNat_zeros (k : Nat) : toNat (List.replicate k (of '0')) = 0 := by
  induction k with
  | zero => rfl
  | succ k ih =>
    rw [List.replicate_succ', toNat_append, ih, Nat.zero_mul]
    rfl

theorem ofNat_of_lt (h : n < 10) : ofNat n = [of n.digitChar] := by
  rw [ofNat, Nat.toDigits_of_lt_base h]
  rfl

theorem ofNat_of_le (h : 10 ≤ n) : ofNat n = ofNat (n / 10) ++ [of (n % 10).digitChar] := by
  rw [ofNat, Nat.toDigits_of_base_le (by decide) h, List.map_append]
  rfl

theorem toNat_ofNat (n : Nat) : toNat (ofNat n) = n := by
  induction n using Nat.strongRecOn with
  | ind n ih =>
    rcases Nat.lt_or_ge n 10 with h | h
    · rw [ofNat_of_lt h, toNat, List.foldl_cons, List.foldl_nil, (of_digitChar h).2.1]
      omega
    · have hmod : n % 10 < 10 := Nat.mod_lt _ (by decide)
      rw [ofNat_of_le h, toNat_append, ih _ (by omega), toNat, List.foldl_cons, List.foldl_nil,
        (of_digitChar hmod).2.1, List.length_singleton]
      omega

theorem ofNat_ne_nil (n : Nat) : ofNat n ≠ [] := by
  rw [ofNat, Ne, List.map_eq_nil_iff]
  exact Nat.toDigits_ne_nil

theorem ofNat_isDigit (n : Nat) : ∀ u ∈ ofNat n, u.isDigit := by
  induction n using Nat.strongRecOn with
  | ind n ih =>
    rcases Nat.lt_or_ge n 10 with h | h
    · rw [ofNat_of_lt h, List.forall_mem_singleton]
      exact (of_digitChar h).1
    · rw [ofNat_of_le h, List.forall_mem_append, List.forall_mem_singleton]
      exact ⟨ih _ (by omega), (of_digitChar (Nat.mod_lt _ (by decide))).1⟩

theorem ofNat_head? (h : 0 < n) : (ofNat n).head? ≠ some (of '0') := by
  induction n using Nat.strongRecOn with
  | ind n ih =>
    rcases Nat.lt_or_ge n 10 with hlt | hge
    · rw [ofNat_of_lt hlt, List.head?_cons]
      intro he
      have := (of_digitChar hlt).2.2 (Option.some.inj he)
      omega
    · have hrest := ih (n / 10) (by omega) (by omega)
      rw [ofNat_of_le hge]
      cases hu : ofNat (n / 10) with
      | nil => exact absurd hu (ofNat_ne_nil _)
      | cons u rest =>
        rw [hu] at hrest
        exact hrest

end Text

/-- Digits with no needless zero at their start. -/
structure IsWhole (t : Text) : Prop where
  ne_nil : t ≠ []
  digits : ∀ u ∈ t, u.isDigit
  zero : t.head? = some (of '0') → t = [of '0']

/-- The text does not go on with a number. -/
def EndsNumber (t : Text) : Prop :=
  ∀ u, t.head? = some u → u.isDigit = false ∧ u ≠ of '.' ∧ u ≠ of 'e' ∧ u ≠ of 'E'

/-- Digits that start with another one than zero. -/
structure IsSignificant (t : Text) : Prop where
  ne_nil : t ≠ []
  digits : ∀ u ∈ t, u.isDigit
  nonzero : t.head? ≠ some (of '0')

theorem IsSignificant.isWhole_append {t u : Text} (h : IsSignificant t)
    (hu : ∀ v ∈ u, v.isDigit) : IsWhole (t ++ u) where
  ne_nil := List.append_ne_nil_of_left_ne_nil h.ne_nil u
  digits := List.forall_mem_append.2 ⟨h.digits, hu⟩
  zero hz := by
    cases t with
    | nil => exact absurd rfl h.ne_nil
    | cons v rest => exact absurd hz h.nonzero

theorem IsSignificant.isWhole_take {t : Text} (h : IsSignificant t) {n : Nat} (hn : 0 < n) :
    IsWhole (t.take n) := by
  cases t with
  | nil => exact absurd rfl h.ne_nil
  | cons v rest =>
    obtain ⟨n, rfl⟩ := Nat.exists_eq_add_of_le' hn
    exact {
      ne_nil := nofun
      digits := fun u hu => h.digits u (List.mem_of_mem_take hu)
      zero := fun hz => absurd hz h.nonzero }

/-- The digits after a decimal point, with the point; nothing for no digits. -/
def fractionText (t : Text) : Text := if t = [] then [] else of '.' :: t

/-- An exponent as it is written in a number; nothing for none. -/
def exponentPart : Option Int → Text
  | none => []
  | some e => of 'e' :: Binary64.exponentText e

theorem not_digit_exponentPart {e : Option Int} {rest : Text} (h : EndsNumber rest) :
    ∀ u, (exponentPart e ++ rest).head? = some u → u.isDigit = false ∧ u ≠ of '.' := by
  cases e with
  | none =>
    intro u hu
    exact ⟨(h u hu).1, (h u hu).2.1⟩
  | some e =>
    intro u hu
    cases hu
    decide

theorem not_digit_fractionText {t : Text} {e : Option Int} {rest : Text} (h : EndsNumber rest) :
    ∀ u, (fractionText t ++ (exponentPart e ++ rest)).head? = some u → u.isDigit = false := by
  rw [fractionText]
  split
  · intro u hu
    exact (not_digit_exponentPart h u hu).1
  · intro u hu
    cases hu
    decide

namespace Json

variable {t u rest : Text}

theorem takeWhile_digits (ht : ∀ u ∈ t, u.isDigit)
    (hrest : ∀ u, rest.head? = some u → u.isDigit = false) :
    (t ++ rest).takeWhile CodeUnit.isDigit = t ∧ (t ++ rest).dropWhile CodeUnit.isDigit = rest := by
  have hstop : rest.takeWhile CodeUnit.isDigit = [] ∧ rest.dropWhile CodeUnit.isDigit = rest := by
    cases rest with
    | nil => exact ⟨rfl, rfl⟩
    | cons v more =>
      have hv := hrest v rfl
      rw [List.takeWhile_cons_of_neg (by rw [hv]; decide),
        List.dropWhile_cons_of_neg (by rw [hv]; decide)]
      exact ⟨rfl, rfl⟩
  rw [List.takeWhile_append_of_pos ht, List.dropWhile_append_of_pos ht, hstop.1, hstop.2,
    List.append_nil]
  exact ⟨rfl, rfl⟩

theorem readDigits_append (hne : t ≠ []) (ht : ∀ u ∈ t, u.isDigit)
    (hrest : ∀ u, rest.head? = some u → u.isDigit = false) :
    readDigits (t ++ rest) = some (t, rest) := by
  obtain ⟨htake, hdrop⟩ := takeWhile_digits ht hrest
  rw [readDigits, htake, hdrop]
  split
  · next h => exact absurd rfl hne
  · rfl

theorem readWhole_append (ht : IsWhole t)
    (hrest : ∀ u, rest.head? = some u → u.isDigit = false) :
    readWhole (t ++ rest) = some (t, rest) := by
  cases t with
  | nil => exact absurd rfl ht.ne_nil
  | cons u more =>
    rw [List.cons_append, readWhole]
    split
    · next h =>
      have hmore : u :: more = [of '0'] := ht.zero (congrArg some h)
      rw [(List.cons.inj hmore).2, List.nil_append]
    · exact readDigits_append ht.ne_nil ht.digits hrest

theorem readFraction_append (ht : ∀ u ∈ t, u.isDigit)
    (hrest : ∀ u, rest.head? = some u → u.isDigit = false ∧ u ≠ of '.') :
    readFraction (fractionText t ++ rest) = some (t, rest) := by
  rw [fractionText]
  split
  · next h =>
    subst h
    rw [List.nil_append, readFraction]
    cases rest with
    | nil => rfl
    | cons v more => rw [expect?, if_neg (hrest v rfl).2]
  · next h =>
    rw [List.cons_append, readFraction, expect?, if_pos rfl]
    exact readDigits_append h ht fun u hu => (hrest u hu).1

theorem readExponent_none (h : EndsNumber rest) : readExponent rest = some (0, rest) := by
  cases rest with
  | nil => rfl
  | cons v more =>
    obtain ⟨-, -, he, hE⟩ := h v rfl
    rw [readExponent.eq_def]
    apply if_neg
    intro h
    exact h.elim he hE

theorem readExponent_some (e : Int) (h : EndsNumber rest) :
    readExponent (of 'e' :: (Binary64.exponentText e ++ rest)) = some (e, rest) := by
  have hdigits : readDigits (Text.ofNat e.natAbs ++ rest) = some (Text.ofNat e.natAbs, rest) :=
    readDigits_append (Text.ofNat_ne_nil _) (Text.ofNat_isDigit _) fun u hu => (h u hu).1
  rw [readExponent.eq_def, Binary64.exponentText, List.cons_append]
  simp only [true_or, if_true]
  by_cases hneg : e < 0
  · simp only [if_pos hneg, if_true, hdigits, Option.map_some, Text.toNat_ofNat]
    rw [show -(e.natAbs : Int) = e by omega]
  · have hsign : of '+' ≠ of '-' := by decide
    simp only [if_neg hneg, if_neg hsign, if_true, hdigits, Option.map_some, Text.toNat_ofNat]
    rw [show (e.natAbs : Int) = e by omega]

theorem readExponent_part (e : Option Int) (h : EndsNumber rest) :
    readExponent (exponentPart e ++ rest) = some (e.getD 0, rest) := by
  cases e with
  | none => exact readExponent_none h
  | some e => exact readExponent_some e h

theorem readNumber_parts (negative : Bool) (e : Option Int) (ht : IsWhole t)
    (hu : ∀ v ∈ u, v.isDigit) (hrest : EndsNumber rest) :
    readNumber ((if negative then [of '-'] else []) ++
        (t ++ (fractionText u ++ (exponentPart e ++ rest)))) =
      some (.ofDecimal negative (Text.toNat (t ++ u)) (e.getD 0 - u.length), rest) := by
  have hwhole := readWhole_append ht (not_digit_fractionText (t := u) (e := e) hrest)
  have hfraction := readFraction_append hu (not_digit_exponentPart (e := e) hrest)
  have hexponent := readExponent_part e hrest
  have hsign : (t ++ (fractionText u ++ (exponentPart e ++ rest))).head? ≠ some (of '-') := by
    cases t with
    | nil => exact absurd rfl ht.ne_nil
    | cons v more =>
      intro hv
      have hdigit := ht.digits v List.mem_cons_self
      rw [Option.some.inj hv] at hdigit
      exact absurd hdigit (by decide)
  cases negative with
  | true =>
    simp only [readNumber, if_true, List.singleton_append, List.head?_cons, beq_self_eq_true,
      List.drop_one, List.tail_cons, hwhole, hfraction, hexponent, Option.bind_eq_bind,
      Option.bind_some]
    rfl
  | false =>
    simp only [readNumber, Bool.false_eq_true, if_false, List.nil_append,
      beq_eq_false_iff_ne.2 hsign, hwhole, hfraction, hexponent, Option.bind_eq_bind,
      Option.bind_some]
    rfl

end Json

namespace Binary64

variable {t rest : Text} {x : Binary64}

/-- Digits with a decimal point are written in parts that have the same value. -/
theorem digitsText_parts (h : IsSignificant t) (point : Int) :
    ∃ whole fraction e, ∃ k : Nat,
      digitsText t point = whole ++ (fractionText fraction ++ exponentPart e) ∧
      IsWhole whole ∧ (∀ u ∈ fraction, u.isDigit) ∧
      Text.toNat (whole ++ fraction) = t.toNat * 10 ^ k ∧
      e.getD 0 - fraction.length + k = point - t.length := by
  have hzeros (k : Nat) : ∀ u ∈ List.replicate k (of '0'), u.isDigit := by
    intro u hu
    rw [List.eq_of_mem_replicate hu]
    decide
  rw [digitsText]
  split
  · next hpoint =>
    refine ⟨t ++ List.replicate (point.toNat - t.length) (of '0'), [], none,
      point.toNat - t.length, ?_, h.isWhole_append (hzeros _), nofun, ?_, ?_⟩
    · exact (List.append_nil _).symm
    · rw [List.append_nil, Text.toNat_append, Text.toNat_zeros, List.length_replicate, Nat.add_zero]
    · simp only [Option.getD_none, List.length_nil]
      omega
  split
  · next hlong hpoint =>
    have hfraction : t.drop point.toNat ≠ [] := by
      rw [Ne, List.drop_eq_nil_iff]
      omega
    refine ⟨t.take point.toNat, t.drop point.toNat, none, 0, ?_, ?_, ?_, ?_, ?_⟩
    · rw [fractionText, if_neg hfraction]
      exact congrArg _ (List.append_nil _).symm
    · exact h.isWhole_take (by omega)
    · intro u hu
      exact h.digits u (List.mem_of_mem_drop hu)
    · rw [List.take_append_drop, Nat.pow_zero, Nat.mul_one]
    · rw [Option.getD_none, List.length_drop]
      omega
  split
  · next hlong hmid hpoint =>
    refine ⟨[of '0'], List.replicate (-point).toNat (of '0') ++ t, none, 0, ?_, ?_, ?_, ?_, ?_⟩
    · rw [fractionText, if_neg (List.append_ne_nil_of_right_ne_nil _ h.ne_nil)]
      exact congrArg _ (congrArg _ (List.append_nil _).symm)
    · exact ⟨nofun, List.forall_mem_singleton.2 rfl, fun _ => rfl⟩
    · exact List.forall_mem_append.2 ⟨hzeros _, h.digits⟩
    · have hlead : Text.toNat [of '0'] = 0 := rfl
      rw [Text.toNat_append, hlead, Text.toNat_append, Text.toNat_zeros, Nat.zero_mul, Nat.zero_mul,
        Nat.zero_add, Nat.zero_add, Nat.pow_zero, Nat.mul_one]
    · rw [Option.getD_none, List.length_append, List.length_replicate]
      omega
  · next hlong hmid hsmall =>
    refine ⟨t.take 1, t.drop 1, some (point - 1), 0, ?_, h.isWhole_take Nat.one_pos, ?_, ?_, ?_⟩
    · rw [List.append_assoc, fractionText]
      congr 2
      simp only [List.drop_eq_nil_iff]
    · intro u hu
      exact h.digits u (List.mem_of_mem_drop hu)
    · rw [List.take_append_drop, Nat.pow_zero, Nat.mul_one]
    · have hpos : 0 < t.length := List.length_pos_iff.2 h.ne_nil
      rw [Option.getD_some, List.length_drop]
      omega

theorem exists_trimmed (t : Text) (u : CodeUnit) :
    ∃ k, t = (t.reverse.dropWhile (· == u)).reverse ++ List.replicate k u := by
  refine ⟨(t.reverse.takeWhile (· == u)).length, ?_⟩
  have hall : t.reverse.takeWhile (· == u) =
      List.replicate (t.reverse.takeWhile (· == u)).length u := by
    rw [List.eq_replicate_iff]
    exact ⟨rfl, fun v hv => beq_iff_eq.1 (List.all_eq_true.1 List.all_takeWhile v hv)⟩
  have hsplit := List.takeWhile_append_dropWhile (p := (· == u)) (l := t.reverse)
  rw [← List.reverse_inj, List.reverse_append, List.reverse_reverse, List.reverse_replicate, ← hall,
    hsplit]

theorem layout_spec (d : Decimal) (hd : 0 < d.digits) :
    IsSignificant (layout d).1 ∧ ∃ k : Nat, d.digits = (layout d).1.toNat * 10 ^ k ∧
      (layout d).2 = (layout d).1.length + k + d.exponent := by
  obtain ⟨k, hk⟩ := exists_trimmed (Text.ofNat d.digits) (of '0')
  have hshown : (layout d).1 =
    ((Text.ofNat d.digits).reverse.dropWhile (· == of '0')).reverse := rfl
  have hpoint : (layout d).2 = (Text.ofNat d.digits).length + d.exponent := rfl
  rw [← hshown] at hk
  have hhead := Text.ofNat_head? hd
  have hdigits := Text.ofNat_isDigit d.digits
  have hne : (layout d).1 ≠ [] := by
    intro he
    rw [he, List.nil_append] at hk
    cases k with
    | zero => exact Text.ofNat_ne_nil _ hk
    | succ k =>
      rw [hk] at hhead
      exact hhead rfl
  rw [hk] at hhead hdigits
  refine ⟨⟨hne, fun u hu => hdigits u (List.mem_append_left _ hu), ?_⟩, k, ?_, ?_⟩
  · intro hz
    cases h : (layout d).1 with
    | nil => exact hne h
    | cons u rest =>
      rw [h] at hhead hz
      exact hhead hz
  · calc d.digits = Text.toNat (Text.ofNat d.digits) := (Text.toNat_ofNat _).symm
      _ = (layout d).1.toNat * 10 ^ k := by
        rw [hk, Text.toNat_append, Text.toNat_zeros, List.length_replicate, Nat.add_zero]
  · rw [hpoint, hk, List.length_append, List.length_replicate]
    omega

theorem shortest_digits_pos (h : x.isZero = false) : 0 < x.shortest.digits := by
  apply Nat.pos_of_ne_zero
  intro hdigits
  have hback := beq_iff_eq.1 x.shortest_readsBack
  rw [hdigits, ofDecimal, if_pos rfl] at hback
  have hrank : x.rank = 0 := hback.symm
  rw [isZero, hrank] at h
  cases h

theorem ofDecimal_shortest (x : Binary64) :
    ofDecimal x.negative x.shortest.digits x.shortest.exponent = x := by
  apply ext
  · exact ofDecimal_negative _ _ _
  · rw [ofDecimal_rank]
    exact beq_iff_eq.1 x.shortest_readsBack

theorem text_of_zero (h : x.isZero) : x.text = Text.ofString "0" := by
  rw [text, magnitudeText, h, Bool.not_true, Bool.and_false, if_pos rfl]
  rfl

theorem text_of_nonzero (h : x.isZero = false) (hfinite : x.isFinite) :
    x.text = (if x.negative then [of '-'] else []) ++
      digitsText (layout x.shortest).1 (layout x.shortest).2 := by
  have hmagnitude : x.magnitudeText = digitsText (layout x.shortest).1 (layout x.shortest).2 := by
    rw [magnitudeText, h, if_neg (by decide), if_pos hfinite]
  rw [text, hmagnitude, h, Bool.not_false, Bool.and_true]
  cases x.negative <;> rfl

theorem readNumber_text (hfinite : x.isFinite) (hzero : x.isZero → x.negative = false)
    (hrest : EndsNumber rest) : Json.readNumber (x.text ++ rest) = some (x, rest) := by
  cases h : x.isZero with
  | true =>
    have hread := Json.readNumber_parts (t := [of '0']) (u := []) false none
      ⟨nofun, List.forall_mem_singleton.2 rfl, fun _ => rfl⟩ nofun hrest
    have hx : ofDecimal false (Text.toNat ([of '0'] ++ [])) ((none : Option Int).getD 0 -
        ([] : Text).length) = x := by
      apply ext
      · rw [ofDecimal_negative, hzero h]
      · exact (beq_iff_eq.1 h).symm
    rw [text_of_zero h]
    rw [hx] at hread
    exact hread
  | false =>
    obtain ⟨hshown, k, hdigits, hpoint⟩ := layout_spec x.shortest (shortest_digits_pos h)
    obtain ⟨whole, fraction, e, j, htext, hwhole, hfraction, hnat, hexp⟩ :=
      digitsText_parts hshown (layout x.shortest).2
    have hread := Json.readNumber_parts x.negative e hwhole hfraction hrest
    have hvalue : ofDecimal x.negative (Text.toNat (whole ++ fraction))
        (e.getD 0 - fraction.length) = x := by
      rw [hnat, ofDecimal_mul_pow, hexp, hpoint]
      have hx := x.ofDecimal_shortest
      rw [hdigits, ofDecimal_mul_pow] at hx
      conv_rhs => rw [← hx]
      congr 1
      omega
    rw [hvalue] at hread
    rw [text_of_nonzero h hfinite, htext]
    simp only [List.append_assoc]
    exact hread

theorem text_first (hfinite : x.isFinite) :
    ∃ u more, x.text = u :: more ∧ (u.isDigit ∨ u = of '-') := by
  cases h : x.isZero with
  | true => exact ⟨_, _, text_of_zero h, .inl (by decide)⟩
  | false =>
    obtain ⟨hshown, -⟩ := layout_spec x.shortest (shortest_digits_pos h)
    obtain ⟨whole, fraction, e, j, htext, hwhole, -⟩ :=
      digitsText_parts hshown (layout x.shortest).2
    rw [text_of_nonzero h hfinite, htext]
    cases x.negative with
    | true => exact ⟨_, _, rfl, .inr rfl⟩
    | false =>
      cases whole with
      | nil => exact absurd rfl hwhole.ne_nil
      | cons u more => exact ⟨u, _, rfl, .inl (hwhole.digits u List.mem_cons_self)⟩

end Binary64

end BrookSyntax
