import BrookSyntax.Proofs.StmtBlame

namespace BrookSyntax

/-- A whole word stands at an offset: no word goes on after it. -/
def Source.hasWordAt (s : Source) (i : Nat) (word : Text) : Bool :=
  s.hasAt i word && !(s.unit? (i + word.length)).any CodeUnit.isWordPart

theorem Source.hasWordAt_unique {s : Source} {i : Nat} {a b : Text} (ha : IsWord a) (hb : IsWord b)
    (h : s.hasWordAt i a) (h' : s.hasWordAt i b) : a = b := by
  simp only [hasWordAt, Bool.and_eq_true, Bool.not_eq_true'] at h h'
  exact run_unique h.1 ha.2 h.2 h'.1 hb.2 h'.2

namespace Parser

variable {α β γ : Type} {s : Source} {c : Cursor} {f : Failure}

theorem choice_congr {ps qs : List (Parser α)} (h : List.Forall₂ (fun p q => p s c = q s c) ps qs) :
    choice ps s c = choice qs s c := by
  have hattempts : attempts s c ps = attempts s c qs := by
    induction h with
    | nil => rfl
    | cons hpq _ ih => rw [attempts_cons, attempts_cons, hpq, ih]
  rw [choice, choice, hattempts]

variable {start : Parser γ} {p : Parser α} {g : α → Span → β} {label : Text}

theorem started_committed {d : Cursor} {a : γ} (hstart : start s c = .ok d a)
    (hf : labelled label (mapSpan (start *> committed p) g) s c = .failed f) :
    f.committed = true := by
  obtain ⟨g, hg, rfl⟩ := labelled_eq_failed.1 hf
  obtain hg | ⟨d', a', -, hg⟩ := seqRight_eq_failed.1 (mapSpan_eq_failed.1 hg)
  · rw [hstart] at hg
    cases hg
  · obtain ⟨g, -, rfl⟩ := committed_eq_failed.1 hg
    rfl

theorem not_started (hstart : start s c = .failed f) :
    labelled label (mapSpan (start *> p) g) s c = .failed (f.within label c.offset) :=
  labelled_eq_failed.2 ⟨f, mapSpan_eq_failed.2 (seqRight_eq_failed.2 (.inl hstart)), rfl⟩

end Parser

namespace Grammar

open BrookSyntax.Parser

variable {α : Type} {s : Source} {c : Cursor}

/-- The rules of the statements that start with a keyword, in the order in which they are tried. -/
def keywordRules : List (Text × Parser Stmt) :=
  [("if", conditional), ("while", whileLoop), ("loop", loop), ("break", breakLoop),
    ("continue", continueLoop), ("return", returnValue), ("let", letBinding),
    ("const", constBinding), ("fn", function)]

/-- A rule of statements, the text that it starts with, and the test whether that text is there. -/
structure Opening where
  text : Text
  here : Source → Nat → Bool
  rule : Parser Stmt

namespace Opening

def brace : Opening := ⟨"\x7b", fun s i => s.hasAt i "\x7b", Stmt.block <$> block⟩

def ofKeyword (entry : Text × Parser Stmt) : Opening :=
  ⟨entry.1, fun s i => s.hasWordAt i entry.1, entry.2⟩

/-- The openings of all statements that are not expressions. -/
def all : List Opening := brace :: keywordRules.map ofKeyword

/-- Where its opening is there, the rule fails for good only; where it is not, the rule fails at
once and misses its opening. -/
structure Settles (o : Opening) (s : Source) (c : Cursor) : Prop where
  committed : o.here s c.offset = true → ∀ f, o.rule s c = .failed f → f.committed = true
  misses : o.here s c.offset = false →
    ∃ f, FailsOpen s c o.rule f ∧ f.cause = .literal o.text ∧ f.offset = c.offset

theorem brace_settles : brace.Settles s c where
  committed hat f hf := by
    have hopen : literal "\x7b" s c = .ok (c.advance s 1) "\x7b" := if_pos hat
    exact started_committed hopen (map_eq_failed.1 hf)
  misses hat := by
    have hopen := literal_eq_failed.2 ⟨hat, rfl⟩
    exact ⟨_, ⟨map_eq_failed.2 (not_started hopen), rfl⟩, rfl, rfl⟩

theorem ofKeyword_settles {p : Parser α} {g : α → Span → Stmt} {label word : Text}
    {rule : Parser Stmt}
    (h : rule s c = labelled label (mapSpan (keyword word *> committed p) g) s c) :
    (ofKeyword (word, rule)).Settles s c where
  committed hat f hf := by
    have hword : keyword word s c = .ok (c.advance s word.length) word := if_pos hat
    exact started_committed hword (h.symm.trans hf)
  misses hat := by
    have hword : keyword word s c = _ := literalBefore_eq_failed.2 ⟨hat, rfl⟩
    exact ⟨_, ⟨h.trans (not_started hword), rfl⟩, rfl, rfl⟩

theorem all_settle : ∀ o ∈ all, o.Settles s c := by
  simp only [all, keywordRules, List.map_cons, List.map_nil, List.forall_mem_cons, List.not_mem_nil,
    false_implies, implies_true, and_true]
  exact ⟨brace_settles, ofKeyword_settles rfl, ofKeyword_settles rfl, ofKeyword_settles rfl,
    ofKeyword_settles rfl, ofKeyword_settles rfl, ofKeyword_settles rfl, ofKeyword_settles rfl,
    ofKeyword_settles rfl, ofKeyword_settles rfl⟩

/-- Two openings that are there at once start with the same text. -/
theorem text_unique {o o' : Opening} {i : Nat} (ho : o ∈ all) (ho' : o' ∈ all)
    (h : o.here s i) (h' : o'.here s i) : o.text = o'.text := by
  have hwords : ∀ entry ∈ keywordRules, entry.1 ∈ keywords := by
    simp only [keywordRules, List.forall_mem_cons, List.not_mem_nil, false_implies, implies_true,
      and_true]
    decide
  have hbrace {entry : Text × Parser Stmt} (hmem : entry ∈ keywordRules)
      (hopen : s.hasAt i "\x7b") (hword : s.hasWordAt i entry.1) : False := by
    obtain ⟨⟨u, rest, heq, hu⟩, -⟩ := keywords_isWord (hwords entry hmem)
    rw [Source.hasWordAt, heq, Bool.and_eq_true] at hword
    have hunit := (Source.hasAt_cons.1 hword.1).1
    rw [(Source.hasAt_cons.1 hopen).1] at hunit
    cases hunit
    exact absurd hu (by decide)
  simp only [all, List.mem_cons, List.mem_map] at ho ho'
  obtain rfl | ⟨a, ha, rfl⟩ := ho
  · obtain rfl | ⟨b, hb, rfl⟩ := ho'
    · rfl
    · exact (hbrace hb h h').elim
  · obtain rfl | ⟨b, hb, rfl⟩ := ho'
    · exact (hbrace ha h' h).elim
    · exact Source.hasWordAt_unique (keywords_isWord (hwords a ha)) (keywords_isWord (hwords b hb))
        h h'

theorem all_missed {os : List Opening} (h : ∀ o ∈ os, o.Settles s c)
    (hnot : ∀ o ∈ os, o.here s c.offset = false) :
    ∃ fs, List.Forall₂ (FailsOpen s c) (os.map rule) fs ∧
      fs.map Failure.cause = os.map (fun o => .literal o.text) ∧ ∀ f ∈ fs, f.offset = c.offset := by
  induction os with
  | nil => exact ⟨[], .nil, rfl, nofun⟩
  | cons o os ih =>
    rw [List.forall_mem_cons] at h hnot
    obtain ⟨f, hf, hcause, hoffset⟩ := h.1.misses hnot.1
    obtain ⟨fs, hfs, hcauses, hoffsets⟩ := ih h.2 hnot.2
    refine ⟨f :: fs, .cons hf hfs, ?_, List.forall_mem_cons.2 ⟨hoffset, hoffsets⟩⟩
    rw [List.map_cons, List.map_cons, hcause, hcauses]

end Opening

theorem statement_eq_choice :
    statement s c = choice (Opening.all.map Opening.rule ++ [expressionStmt]) s c :=
  choice_congr (.cons rfl <| .cons rfl <| .cons rfl <| .cons rfl <| .cons rfl <| .cons rfl <|
    .cons rfl <| .cons rfl <| .cons rfl <| .cons rfl <| .cons rfl .nil)

/-- Where an opening is there, its rule reads the statement: the rules before it are passed over,
and those after it are not tried. -/
theorem statement_of_opening {o : Opening} (ho : o ∈ Opening.all) (hat : o.here s c.offset = true) :
    statement s c = o.rule s c := by
  obtain ⟨before, after, hall⟩ := List.append_of_mem ho
  have hmissed : ∀ o' ∈ before, o'.here s c.offset = false := by
    intro o' ho'
    rw [Bool.eq_false_iff]
    intro hat'
    have hdistinct : (Opening.all.map Opening.text).Nodup := by decide
    have hmem : o' ∈ Opening.all := hall ▸ List.mem_append_left _ ho'
    rw [hall, List.map_append, List.map_cons, List.nodup_append] at hdistinct
    exact hdistinct.2.2 _ (List.mem_map_of_mem ho') _ List.mem_cons_self
      (Opening.text_unique hmem ho hat' hat)
  have hsettles : ∀ o' ∈ before, o'.Settles s c := fun o' ho' =>
    Opening.all_settle o' (hall ▸ List.mem_append_left _ ho')
  obtain ⟨fs, hfs, -⟩ := Opening.all_missed hsettles hmissed
  rw [statement_eq_choice, hall, List.map_append, List.map_cons, List.append_assoc,
    List.cons_append, choice, attempts_append hfs, attempts_cons]
  cases hrule : o.rule s c with
  | ok d stmt => rfl
  | failed f =>
    have hcom := (Opening.all_settle o ho).committed hat f hrule
    simp only [hcom, ↓reduceIte]

/-- The result of an expression statement where no other statement starts: a failure that did not
get beyond the start tells of everything that might have started there. -/
def orNoStatement (i : Nat) : Result Stmt → Result Stmt
  | .ok d stmt => .ok d stmt
  | .failed f => .failed (if f.committed = false ∧ f.offset = i then noStatement i else f)

theorem statement_of_no_opening (hc : c.offset ≤ s.length)
    (hnot : ∀ o ∈ Opening.all, o.here s c.offset = false) :
    statement s c = orNoStatement c.offset (expressionStmt s c) := by
  obtain ⟨fs, hfs, hcauses, hhere⟩ := Opening.all_missed Opening.all_settle hnot
  rw [statement_eq_choice, choice, attempts_append hfs, attempts_cons]
  cases hexpr : expressionStmt s c with
  | ok d stmt => rfl
  | failed f =>
    obtain ⟨hcom, -⟩ | ⟨hcom, ⟨hcause, hoffset⟩ | ⟨hlt, -⟩⟩ := expressionStmt_fails hc hexpr
    · simp only [hcom, ↓reduceIte, orNoStatement, Bool.true_eq_false, false_and]
    · have hall : ∀ g ∈ fs ++ [f], g.offset = c.offset :=
        List.forall_mem_append.2 ⟨hhere, List.forall_mem_singleton.2 hoffset⟩
      have hlen : (fs ++ [f]).length ≠ 1 := by
        rw [List.length_append, ← hfs.length_eq, List.length_map, List.length_singleton]
        decide
      simp only [hcom, Bool.false_eq_true, ↓reduceIte, attempts, orNoStatement, hoffset, and_self,
        Failure.merge_of_offset hall hlen, List.map_append, hcauses, List.map_singleton, hcause]
      rfl
    · simp only [hcom, Bool.false_eq_true, ↓reduceIte, attempts, orNoStatement,
        Nat.ne_of_gt hlt, and_false, Failure.merge_snoc hhere hlt]

/-- The first token decides: at a brace the statement is a block and at a keyword it is what that
keyword's rule gives, with failures for good only; anywhere else it is an expression. So a failure
that is not committed is that no statement starts here or that a semicolon is missing. -/
theorem statement_of_first_token (hc : c.offset ≤ s.length) :
    (s.hasAt c.offset "\x7b" = true →
      statement s c = (Stmt.block <$> block) s c ∧
        ∀ f, block s c = .failed f → f.committed = true) ∧
    (∀ word rule, (word, rule) ∈ keywordRules → s.hasWordAt c.offset word = true →
      statement s c = rule s c ∧ ∀ f, rule s c = .failed f → f.committed = true) ∧
    (s.hasAt c.offset "\x7b" = false →
      (∀ word rule, (word, rule) ∈ keywordRules → s.hasWordAt c.offset word = false) →
      statement s c = orNoStatement c.offset (expressionStmt s c)) ∧
    ∀ f, statement s c = .failed f → f.committed = false →
      f = noStatement c.offset ∨ c.offset < f.offset ∧ f = missingSemicolon c.offset f.offset := by
  refine ⟨fun hat => ?_, fun word rule hmem hat => ?_, fun hbrace hword => ?_, fun f hf hcom => ?_⟩
  · refine ⟨statement_of_opening (o := .brace) List.mem_cons_self hat, fun f hf => ?_⟩
    exact Opening.brace_settles.committed hat f (map_eq_failed.2 hf)
  · have ho : Opening.ofKeyword (word, rule) ∈ Opening.all :=
      List.mem_cons_of_mem _ (List.mem_map_of_mem hmem)
    exact ⟨statement_of_opening ho hat, (Opening.all_settle _ ho).committed hat⟩
  · apply statement_of_no_opening hc
    rw [Opening.all, List.forall_mem_cons]
    refine ⟨hbrace, fun o ho => ?_⟩
    obtain ⟨entry, hmem, rfl⟩ := List.mem_map.1 ho
    exact hword entry.1 entry.2 hmem
  · exact (statementWith_fails (InnerStmt.ofLevels_fails c.room)).of_open hc ⟨hf, hcom⟩

theorem statement_of_first_token_binding :
    0 ≤ (Source.ofText "let = 1;").length ∧
      statement (.ofText "let = 1;") ⟨0, 0⟩ = letBinding (.ofText "let = 1;") ⟨0, 0⟩ ∧
      statement (.ofText "\x7b)") ⟨0, 0⟩ = (Stmt.block <$> block) (.ofText "\x7b)") ⟨0, 0⟩ ∧
      statement (.ofText "+ 1;") ⟨0, 0⟩ =
        orNoStatement 0 (expressionStmt (.ofText "+ 1;") ⟨0, 0⟩) := by
  have hlet : (Text.ofString "let", letBinding) ∈ keywordRules := by simp [keywordRules]
  have hsign : ∀ word rule, (word, rule) ∈ keywordRules →
      (Source.ofText "+ 1;").hasWordAt 0 word = false := by
    have hall : ∀ word ∈ keywordRules.map Prod.fst,
        (Source.ofText "+ 1;").hasWordAt 0 word = false := by decide
    exact fun word rule hmem => hall word (List.mem_map_of_mem hmem)
  refine ⟨Nat.zero_le _, ?_, ?_, ?_⟩
  · exact ((statement_of_first_token (c := ⟨0, 0⟩) (Nat.zero_le _)).2.1 _ _ hlet (by decide)).1
  · exact ((statement_of_first_token (c := ⟨0, 0⟩) (Nat.zero_le _)).1 (by decide)).1
  · exact (statement_of_first_token (c := ⟨0, 0⟩) (Nat.zero_le _)).2.2.1 (by decide) hsign

end Grammar

end BrookSyntax
