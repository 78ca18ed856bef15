import BrookSyntax.Proofs.Completeness
import BrookSyntax.Proofs.Failing
import BrookSyntax.Proofs.PrintedTokens

namespace BrookSyntax

namespace CodeUnit

theorem isWordStart_of_isDigit {u : CodeUnit} (h : u.isDigit = true) : u.isWordStart = false := by
  rw [isDigit_iff] at h
  rw [Bool.eq_false_iff, ne_eq, isWordStart_iff]
  omega

theorem isWordStart_of_isWordPart {u : CodeUnit} (h : u.isWordPart = true)
    (hd : u.isDigit = false) : u.isWordStart = true := by
  rwa [isWordPart, hd, Bool.or_false] at h

end CodeUnit

/-- The text starts with a unit that is no digit. -/
def Text.NoDigitFirst (w : Text) : Prop := ∃ u t, w = u :: t ∧ u.isDigit = false

instance (w : Text) : Decidable w.NoDigitFirst :=
  match w with
  | [] => isFalse nofun
  | u :: t => decidable_of_iff (u.isDigit = false) (by simp [Text.NoDigitFirst])

theorem keyword_noDigitFirst {k : Text} (hk : k ∈ keywords) : k.NoDigitFirst := by
  revert k
  decide

/-- No reserved word goes on to another one. -/
theorem keywords_isPrefix {k w : Text} (hk : k ∈ keywords) (hw : w ∈ keywords) (h : k <+: w) :
    k = w := by
  have hall : ∀ k ∈ keywords, ∀ w ∈ keywords, k <+: w → k = w := by decide
  exact hall k hk w hw h

theorem isName_of_keyword {k t : Text} (hk : k ∈ keywords) (hne : t ≠ [])
    (ht : ∀ u ∈ t, u.isWordPart = true) : IsName (k ++ t) := by
  obtain ⟨⟨u, rest, rfl, hu⟩, hall⟩ := keywords_isWord hk
  refine ⟨⟨⟨u, rest ++ t, rfl, hu⟩, List.forall_mem_append.2 ⟨hall, ht⟩⟩, fun hw => ?_⟩
  exact hne (List.self_eq_append_right.1 (keywords_isPrefix hk hw (List.prefix_append _ t)))

namespace Source

variable {s : Source} {i : Nat} {w : Text} {test : CodeUnit → Bool}

theorem RunAt.length_le (h : s.RunAt test i w) (hne : w ≠ []) : i ≤ s.length := by
  cases w with
  | nil => exact absurd rfl hne
  | cons u w => exact Nat.le_of_lt (lt_length_of_unit? (hasAt_cons.1 h.hasAt).1)

theorem existsUnique_runAt (s : Source) (test : CodeUnit → Bool) (i : Nat) :
    ∃! w, s.RunAt test i w := by
  have hex : ∃ w, s.RunAt test i w := by
    rcases Nat.le_total i s.length with hi | hi
    · exact exists_runAt test hi
    · exact ⟨[], rfl, nofun, by rw [List.length_nil, Nat.add_zero, unit?_eq_none hi]; rfl⟩
  obtain ⟨w, hw⟩ := hex
  exact ⟨w, hw, fun _ h => h.unique hw⟩

theorem RunAt.isWord (h : s.RunAt CodeUnit.isWordPart i w) (hw : w.NoDigitFirst) : IsWord w := by
  obtain ⟨u, t, rfl, hu⟩ := hw
  exact ⟨⟨u, t, rfl, CodeUnit.isWordStart_of_isWordPart (h.all u List.mem_cons_self) hu⟩, h.all⟩

theorem RunAt.not_isWordStart (h : s.RunAt CodeUnit.isWordPart i w) (hw : ¬ w.NoDigitFirst) :
    (s.unit? i).any CodeUnit.isWordStart = false := by
  cases w with
  | nil =>
    have hstop := h.stop
    rw [List.length_nil, Nat.add_zero] at hstop
    cases hu : s.unit? i with
    | none => rfl
    | some u =>
      rw [hu, Option.any_some, CodeUnit.isWordPart, Bool.or_eq_false_iff] at hstop
      exact hstop.1
  | cons u t =>
    have hd : u.isDigit = true := by
      by_contra hd
      exact hw ⟨u, t, rfl, Bool.eq_false_iff.2 hd⟩
    rw [(hasAt_cons.1 h.hasAt).1]
    exact CodeUnit.isWordStart_of_isDigit hd

end Source

namespace Grammar

open BrookSyntax.Parser Source

variable {s : Source} {c : Cursor} {k w : Text}

theorem identifier_of_run (h : s.RunAt CodeUnit.isWordPart c.offset w) (hw : w.NoDigitFirst) :
    identifier s c =
      if w ∈ keywords then .failed { cause := .token "identifier", offset := c.offset }
      else .ok ⟨c.offset + w.length, c.depth⟩ w := by
  have hword : word s c = .ok _ w := word_eq_ok.2 ⟨h.isWord hw, h.hasAt, h.stop, rfl⟩
  simp only [identifier, hword, List.contains_eq_mem, decide_eq_true_eq, fail]

theorem identifier_fails_of_run (h : s.RunAt CodeUnit.isWordPart c.offset w)
    (hw : ¬ w.NoDigitFirst) :
    identifier s c = .failed { cause := .token "identifier", offset := c.offset } := by
  have hfirst : (satisfy CodeUnit.isWordStart "identifier").Declines s c :=
    satisfy_declines (h.not_isWordStart hw)
  obtain ⟨f, hf, -⟩ := hfirst
  obtain rfl := satisfy_eq_failed hf
  have hword : word s c = .failed _ := consumed_eq_failed.2 (seqRight_eq_failed.2 (.inl hf))
  simp only [identifier, hword]

/-- A reserved word is read where it is the longest run, and nowhere else. -/
theorem keyword_of_run (h : s.RunAt CodeUnit.isWordPart c.offset w) (hk : k ∈ keywords) :
    keyword k s c =
      if w = k then .ok ⟨c.offset + k.length, c.depth⟩ k
      else .failed { cause := .literal k, offset := c.offset } := by
  split
  · next hw =>
    subst hw
    have hle : c.offset ≤ s.length := h.length_le (by rintro rfl; revert hk; decide)
    exact (literalBefore_eq_ok hle).2 ⟨h.hasAt, h.stop, rfl, rfl⟩
  · next hw =>
    refine literalBefore_eq_failed.2 ⟨?_, rfl⟩
    rw [Bool.and_eq_false_iff]
    by_contra hno
    rw [not_or, Bool.not_eq_false, Bool.not_eq_false, Bool.not_eq_true'] at hno
    exact hw (h.unique ⟨hno.1, (keywords_isWord hk).2, hno.2⟩)

theorem assignment_lexed (hw : IsName w) : ∃ a b d e,
    (Source.ofText (w ++ " = 1;")).LexedAt 0
      [.name w a, .mark "=" b, ⟨.number (.ofNat 1), d⟩, .mark ";" e] (w.length + 5) := by
  generalize hs : Source.ofText (w ++ " = 1;") = s
  have hat : s.hasAt 0 (w ++ " = 1;") = true := by
    rw [hasAt_iff, ← hs]
    exact List.prefix_refl _
  obtain ⟨hname, hrest⟩ := hasAt_append.1 hat
  rw [Nat.zero_add] at hrest
  have hspace : s.unit? w.length = some CodeUnit.space :=
    unit?_of_hasAt (k := 0) hrest (by decide)
  have hsign : s.hasAt (w.length + 1) "=" = true :=
    hasAt_cons.2 ⟨unit?_of_hasAt (k := 1) hrest (by decide), rfl⟩
  have hspace' : s.unit? (w.length + 2) = some CodeUnit.space :=
    unit?_of_hasAt (k := 2) hrest (by decide)
  have hone : s.hasAt (w.length + 3) "1" = true :=
    hasAt_cons.2 ⟨unit?_of_hasAt (k := 3) hrest (by decide), rfl⟩
  have hsemicolon : s.hasAt (w.length + 4) ";" = true :=
    hasAt_cons.2 ⟨unit?_of_hasAt (k := 4) hrest (by decide), rfl⟩
  have htarget : s.TokenAt 0 (.name w) w.length :=
    tokenAt_name.2 ⟨hw, hname, (Nat.zero_add _).symm, by rw [hspace]; rfl⟩
  have hequals : s.TokenAt (w.length + 1) (.mark "=") (w.length + 2) := by
    refine tokenAt_of_space (t := "=") ⟨rfl, by decide⟩ hsign fun u hu => ?_
    exact Option.some.inj (hu.symm.trans hspace')
  have hvalue : s.TokenAt (w.length + 3) (.number (.ofNat 1)) (w.length + 4) := by
    have hdigits : IsDigits "1" := ⟨by decide, List.all_eq_true.1 (by decide)⟩
    have hstop : s.unit? (w.length + 4) = some (CodeUnit.of ';') := (hasAt_cons.1 hsemicolon).1
    refine ⟨"1", ⟨.whole hdigits, by decide +kernel, by decide +kernel⟩, hone, rfl, ?_⟩
    intro t ht hat'
    have hle : t.length ≤ 1 := by
      refine numeral_le_whole hdigits hone ?_ (fun hpoint => ?_) ht hat'
      · exact hstop ▸ rfl
      · cases hstop.symm.trans hpoint
    omega
  have hend : s.TokenAt (w.length + 4) (.mark ";") (w.length + 5) :=
    tokenAt_plain_mark (by decide) hsemicolon (by decide)
  exact ⟨_, _, _, _, .cons htarget (triviaAt_space hspace)
    (.cons hequals (triviaAt_space hspace') (.cons hvalue (.refl _) (.single hend)))⟩

theorem statement_assigns (hw : IsName w) : ∃ a b d e,
    statement (.ofText (w ++ " = 1;")) ⟨0, 0⟩ =
      .ok ⟨w.length + 5, 0⟩ (.expression (.assign ⟨w, a⟩ (.number (.ofNat 1) b) d) e) := by
  obtain ⟨a, b, d, e, hlexed⟩ := assignment_lexed hw
  have hlen : (Source.ofText (w ++ " = 1;")).length = w.length + 5 := by
    rw [length_eq]
    exact List.length_append
  have hend : (Source.ofText (w ++ " = 1;")).NoElse (w.length + 5) :=
    hlen ▸ (TriviaAt.refl _).noElse (Nat.le_refl _)
  have hvalue := DerivesExpr.number 127 (.ofNat 1) d
  have hassign := DerivesExpr.assign w a b (hvalue.loosen (Nat.le_refl 1) (by decide))
  have hderives : DerivesStmt 128 _ _ := .expression e hassign
  exact ⟨_, _, _, _, statement_accepts (Nat.zero_le _) rfl hlexed hderives hend⟩

/-- At every place the longest run of letters, digits and underscores decides between the reserved
words and the names. Where it starts with no digit, the reserved word is read that it is, and it is
a name if it is none of them; where it is empty or starts with a digit, nothing is read. With
something added to it, a reserved word is a name like others. -/
theorem words_exact (s : Source) (c : Cursor) :
    (∃! w, s.RunAt CodeUnit.isWordPart c.offset w) ∧
    (∀ w, s.RunAt CodeUnit.isWordPart c.offset w →
      (w.NoDigitFirst →
        identifier s c =
            (if w ∈ keywords then .failed { cause := .token "identifier", offset := c.offset }
            else .ok ⟨c.offset + w.length, c.depth⟩ w) ∧
          ∀ k ∈ keywords, keyword k s c =
            if w = k then .ok ⟨c.offset + k.length, c.depth⟩ k
            else .failed { cause := .literal k, offset := c.offset }) ∧
      (¬ w.NoDigitFirst →
        identifier s c = .failed { cause := .token "identifier", offset := c.offset } ∧
          ∀ k ∈ keywords,
            keyword k s c = .failed { cause := .literal k, offset := c.offset })) ∧
    ∀ k ∈ keywords, ∀ t : Text, t ≠ [] → (∀ u ∈ t, u.isWordPart) → ∃ a b d e,
      statement (.ofText (k ++ t ++ " = 1;")) ⟨0, 0⟩ =
        .ok ⟨(k ++ t).length + 5, 0⟩
          (.expression (.assign ⟨k ++ t, a⟩ (.number (.ofNat 1) b) d) e) := by
  refine ⟨s.existsUnique_runAt _ _, fun w h => ⟨fun hw => ?_, fun hw => ?_⟩,
    fun k hk t hne ht => statement_assigns (isName_of_keyword hk hne ht)⟩
  · exact ⟨identifier_of_run h hw, fun k => keyword_of_run h⟩
  · refine ⟨identifier_fails_of_run h hw, fun k hk => ?_⟩
    rw [keyword_of_run h hk, if_neg]
    rintro rfl
    exact hw (keyword_noDigitFirst hk)

/-- A name that starts with a reserved word, and a reserved word that the source ends with. -/
theorem words_exact_iffy :
    (identifier (.ofText "iffy if") ⟨0, 0⟩ = .ok ⟨4, 0⟩ "iffy" ∧
      keyword "if" (.ofText "iffy if") ⟨0, 0⟩ =
        .failed { cause := .literal "if", offset := 0 }) ∧
    identifier (.ofText "iffy if") ⟨5, 0⟩ =
        .failed { cause := .token "identifier", offset := 5 } ∧
      keyword "if" (.ofText "iffy if") ⟨5, 0⟩ = .ok ⟨7, 0⟩ "if" := by
  obtain ⟨-, hfirst, -⟩ := words_exact (.ofText "iffy if") ⟨0, 0⟩
  obtain ⟨-, hsecond, -⟩ := words_exact (.ofText "iffy if") ⟨5, 0⟩
  have hiffy : (Source.ofText "iffy if").RunAt CodeUnit.isWordPart 0 "iffy" :=
    ⟨by decide, List.all_eq_true.1 (by decide), by decide⟩
  have hif : (Source.ofText "iffy if").RunAt CodeUnit.isWordPart 5 "if" :=
    ⟨by decide, List.all_eq_true.1 (by decide), by decide⟩
  obtain ⟨hname, hno⟩ := (hfirst _ hiffy).1 (by decide)
  obtain ⟨hreserved, hyes⟩ := (hsecond _ hif).1 (by decide)
  exact ⟨⟨hname, hno "if" (by decide)⟩, hreserved, hyes "if" (by decide)⟩

end Grammar

end BrookSyntax
