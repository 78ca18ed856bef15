import BrookSyntax.Outcome
import BrookSyntax.Proofs.Soundness

namespace BrookSyntax

namespace Text

variable {sep t u : Text} {ts : List Text}

theorem join_ne_nil (ht : t ∈ ts) (hne : t ≠ []) : join sep ts ≠ [] := by
  intro h
  induction ts with
  | nil => cases ht
  | cons a rest ih =>
    cases rest with
    | nil =>
      rw [join, List.intercalate_singleton] at h
      rw [List.mem_singleton.1 ht, h] at hne
      exact hne rfl
    | cons b more =>
      rw [join, List.intercalate_cons_cons, List.append_eq_nil_iff, List.append_eq_nil_iff] at h
      obtain ⟨⟨ha, -⟩, hrest⟩ := h
      rcases List.mem_cons.1 ht with rfl | ht
      · exact hne ha
      · exact ih ht hrest

theorem prefix_join (hne : ts ≠ []) : t ++ sep <+: join sep (t :: ts) := by
  cases ts with
  | nil => exact absurd rfl hne
  | cons a rest =>
    rw [join, List.intercalate_cons_cons]
    exact List.prefix_append _ _

end Text

theorem Cause.describe_ne_nil (cause : Cause) : cause.describe ≠ [] := by
  cases cause <;> exact List.append_ne_nil_of_left_ne_nil (by decide) _

theorem Cause.code_text (cause : Cause) : ∃ rest, cause.code.text = CodeUnit.of 'P' :: rest := by
  cases cause with
  | literal text =>
    rw [code]
    split <;> exact ⟨_, rfl⟩
  | token description =>
    rw [code]
    split
    · exact ⟨_, rfl⟩
    · split <;> exact ⟨_, rfl⟩
  | endOfInput expected => exact ⟨_, rfl⟩
  | openBlock expected => exact ⟨_, rfl⟩
  | alternatives causes => exact ⟨_, rfl⟩

section Failures

variable {ν : Type}

theorem Failure.describe_ne_nil (f : Failure ν) : f.describe ≠ [] :=
  Text.join_ne_nil (List.mem_append_right _ (List.mem_singleton_self _)) f.cause.describe_ne_nil

theorem Failure.describe_within (f : Failure ν) (label : Text) (offset : ν) :
    label ++ Text.ofString ": " <+: (f.within label offset).describe := by
  rw [describe, within, List.reverse_append, List.reverse_singleton, List.singleton_append,
    List.map_cons, List.cons_append]
  exact Text.prefix_join (List.append_ne_nil_of_right_ne_nil _ (List.cons_ne_nil _ _))

namespace Draft

theorem foldl_addFixIt (d : Draft) (fixIts : List FixIt) :
    fixIts.foldl addFixIt d = { d with fixIts := d.fixIts ++ fixIts } := by
  induction fixIts generalizing d with
  | nil => rw [List.foldl_nil, List.append_nil]
  | cons fixIt rest ih =>
    rw [List.foldl_cons, ih, addFixIt, List.append_assoc, List.singleton_append]

theorem foldl_addRelated {α : Type} (d : Draft) (f : α → Related) (items : List α) :
    items.foldl (fun d a => d.addRelated (f a)) d =
      { d with related := d.related ++ items.map f } := by
  induction items generalizing d with
  | nil => rw [List.foldl_nil, List.map_nil, List.append_nil]
  | cons a rest ih =>
    rw [List.foldl_cons, ih, addRelated, List.append_assoc, List.singleton_append, List.map_cons]

theorem build_ofFailure [Offset ν] (f : Failure ν) (s : Source) :
    (ofFailure f s).build = .ok (Diagnostic.ofFailure f s) := by
  have hm := f.describe_ne_nil
  rw [ofFailure, foldl_addRelated, foldl_addFixIt, build]
  simp only [setPosition, setMessage, error, List.nil_append]
  rfl

end Draft

end Failures

namespace Grammar

variable {s : Source} {c d : Cursor} {p : Program} {f : Failure}

theorem program_span (hc : c.offset ≤ s.length) (h : program s c = .ok d p) :
    d = ⟨s.length, c.depth⟩ ∧ p.span = ⟨s.position c.offset, s.position s.length⟩ := by
  obtain ⟨ts, m, hl, ht, hs, hd, hspan⟩ := program_lexed hc h
  have hr := program_wellBehaved s c hc
  rw [h] at hr
  obtain ⟨offset, depth⟩ := d
  obtain rfl : offset = s.length := hd
  obtain rfl : depth = c.depth := hr.1
  exact ⟨rfl, hspan⟩

theorem program_within (hc : c.offset ≤ s.length) (h : program s c = .failed f) :
    f.Within c.offset s.length := by
  have hr := program_wellBehaved s c hc
  rwa [h] at hr

theorem program_labelled (h : program s c = .failed f) :
    ∃ inner : Failure, f = inner.within "program" c.offset := by
  rw [program, Parser.labelled] at h
  split at h
  · cases h
  · next inner _ =>
    cases h
    exact ⟨inner, rfl⟩

end Grammar

namespace Outcome

/-- The outcome is the tree of a source from an offset to its end. -/
structure Accepted (o : Outcome) (s : Source) (n : Nat) (p : Program) : Prop where
  tree : o.tree = some p
  diagnostics : o.diagnostics = []
  stop : o.stop = s.position s.length
  span : p.span = ⟨s.position n, o.stop⟩

/-- The outcome is no tree and one diagnostic: an error of parsing at the offset of a failure, which
lies between the start and the end of the source, with a related place for each construct around it,
the innermost first and the program last. -/
structure Rejected (o : Outcome) (s : Source) (n : Nat) (f : Failure) (d : Diagnostic) : Prop where
  tree : o.tree = none
  diagnostics : o.diagnostics = [d]
  severity : d.severity = .error
  code : ∃ rest, d.code.text = CodeUnit.of 'P' :: rest
  start_le : n ≤ f.offset
  le_length : f.offset ≤ s.length
  stop : o.stop = s.position f.offset
  span : d.span = .point (o.stop.map .ofNat)
  message : d.message = f.describe
  program : Text.ofString "program: " <+: d.message
  related : d.related = f.frames.map fun frame =>
    ⟨.point ((s.position frame.offset).map .ofNat), "while parsing " ++ frame.label⟩
  nested : f.frames.Pairwise fun inner outer => outer.offset ≤ inner.offset
  outermost : d.related.getLast? =
    some ⟨.point ((s.position n).map .ofNat), "while parsing program"⟩

end Outcome

namespace Source

variable {s : Source} {offset : Double} {n : Nat} {p : Program} {f : Failure}

theorem cursor_eq_ok (hn : n ≤ s.length) (h : offset.toInt? = some (n : Int)) :
    s.cursor offset = .ok ⟨n, 0⟩ := by
  have hle : (0 : Int) ≤ n ∧ (n : Int) ≤ s.length := by omega
  simp only [cursor, h, if_pos hle, Int.toNat_natCast]

theorem cursor_eq_error (h : ∀ n : Nat, n ≤ s.length → offset.toInt? ≠ some (n : Int)) :
    s.cursor offset = .error ⟨offset, s.length⟩ := by
  rw [cursor]
  split
  · next i hi =>
    apply if_neg
    rintro ⟨hpos, hle⟩
    obtain ⟨n, rfl⟩ := Int.eq_ofNat_of_zero_le hpos
    exact h n (by omega) hi
  · rfl

end Source

namespace Outcome

variable {s : Source} {n : Nat} {p : Program} {f : Failure}

theorem rejected_of_failed (hn : n ≤ s.length) (h : Grammar.program s ⟨n, 0⟩ = .failed f)
    (logs : List Text) :
    Rejected ⟨none, [.ofFailure f s], s.position f.offset, logs⟩ s n f (.ofFailure f s) := by
  have hw := Grammar.program_within hn h
  obtain ⟨inner, hf⟩ := Grammar.program_labelled h
  exact {
    tree := rfl
    diagnostics := rfl
    severity := rfl
    code := f.cause.code_text
    start_le := hw.start_le
    le_length := hw.le_stop
    stop := rfl
    span := rfl
    message := rfl
    program := by
      rw [hf]
      exact inner.describe_within "program" n
    related := rfl
    nested := hw.nested
    outermost := by
      rw [hf]
      change (List.map _ (inner.frames ++ [_])).getLast? = _
      rw [List.map_append, List.map_singleton, List.getLast?_concat]
      rfl }

end Outcome

/-- What a parse comes to. From every offset within the source it is either the tree of the rest of
the source or one diagnostic, which its draft always gives, and asking for the tree alone gives this
tree or this diagnostic as an error. Every other number, and what is not a number, is an error. -/
theorem outcome_contract (s : Source) (offset : Double) (file : Option Text) (config : Config)
    (clock : Clock) :
    (∀ n : Nat, n ≤ s.length → offset.toInt? = some (n : Int) →
      ∃ o, s.outcome offset file config clock = .ok o ∧
        ((∃ p, Grammar.program s ⟨n, 0⟩ = .ok ⟨s.length, 0⟩ p ∧ o.Accepted s n p ∧
            s.tree offset = .ok p) ∨
          (∃ f d, Grammar.program s ⟨n, 0⟩ = .failed f ∧ (Draft.ofFailure f s).build = .ok d ∧
            o.Rejected s n f d ∧ s.tree offset = .error (.rejected d)))) ∧
    ((∀ n : Nat, n ≤ s.length → offset.toInt? ≠ some (n : Int)) →
      s.outcome offset file config clock = .error ⟨offset, s.length⟩ ∧
        s.tree offset = .error (.offset ⟨offset, s.length⟩)) := by
  constructor
  · intro n hn hoffset
    have hcursor := Source.cursor_eq_ok hn hoffset
    have hparse : s.parse offset = .ok (Grammar.program s ⟨n, 0⟩) := by
      rw [Source.parse, hcursor]
      rfl
    rw [Source.outcome, Source.tree, hparse]
    refine ⟨_, rfl, ?_⟩
    cases hprogram : Grammar.program s ⟨n, 0⟩ with
    | ok d p =>
      obtain ⟨rfl, hspan⟩ := Grammar.program_span hn hprogram
      exact .inl ⟨p, rfl, ⟨rfl, rfl, rfl, hspan⟩, rfl⟩
    | failed f =>
      have hrejected := Outcome.rejected_of_failed hn hprogram
      exact .inr ⟨f, _, rfl, Draft.build_ofFailure f s, hrejected _, rfl⟩
  · intro hoffset
    have hcursor := Source.cursor_eq_error hoffset
    rw [Source.outcome, Source.tree, Source.parse, hcursor]
    exact ⟨rfl, rfl⟩

theorem outcome_contract_break :
    (∃ o, (Source.ofText "break;").outcome .zero none {} ⟨"", .zero⟩ = .ok o ∧
      o.tree.isSome ∧ o.diagnostics = []) ∧
    (Source.ofText "break;").tree .nan = .error (.offset ⟨.nan, 6⟩) := by
  have hzero : Double.zero.toInt? = some ((0 : Nat) : Int) := by decide +kernel
  have hnan : ∀ n : Nat, n ≤ (Source.ofText "break;").length →
      Double.nan.toInt? ≠ some (n : Int) := by
    intro n _
    exact nofun
  constructor
  · obtain ⟨o, ho, h⟩ := (outcome_contract (.ofText "break;") .zero none {} ⟨"", .zero⟩).1 0
      (Nat.zero_le _) hzero
    obtain ⟨p, -, haccepted, -⟩ | ⟨f, d, hfailed, -⟩ := h
    · exact ⟨o, ho, by rw [haccepted.tree]; rfl, haccepted.diagnostics⟩
    · have hstop : (Grammar.program (.ofText "break;") ⟨0, 0⟩).stop? = some ⟨6, 0⟩ := by
        decide +kernel
      rw [hfailed] at hstop
      cases hstop
  · exact ((outcome_contract (.ofText "break;") .nan none {} ⟨"", .zero⟩).2 hnan).2

end BrookSyntax
