import BrookSyntax.Proofs.Failing

namespace BrookSyntax

/-- What a statement may start with, in the order in which it is tried. -/
def statementCauses : List Cause :=
  [.literal "\x7b", .literal "if", .literal "while", .literal "loop", .literal "break",
    .literal "continue", .literal "return", .literal "let", .literal "const", .literal "fn",
    .token "expression"]

/-- The failures that a program may end with. -/
inductive Failure.Listed (s : Source) (f : Failure) : Prop where
  | mark {t : Text} (hc : f.cause = .literal t) (ht : t ∈ ([";", ")", "(", "\x7b", "="] : List Text))
  | token {t : Text} (hc : f.cause = .token t)
      (ht : t ∈ (["identifier", "expression", "escape sequence", "finite number",
        "nesting depth <= 128"] : List Text))
  | openString (hc : f.cause = .endOfInput "\"") (hend : f.offset = s.length)
  | openBlock (hc : f.cause = .openBlock "\x7d") (hend : f.offset = s.length)
      (hframe : ∃ i, f.innermost? = some ⟨"block", i⟩)
  | statement (hc : f.cause = .alternatives statementCauses)
  | elseBranch (hc : f.cause = .alternatives [.literal "\x7b", .literal "if"])

theorem Failure.innermost?_within {f : Failure} {frame : Frame} (h : f.innermost? = some frame)
    (label : Text) (i : Nat) : (f.within label i).innermost? = some frame := by
  rw [innermost?] at h ⊢
  rw [Failure.within, List.head?_append, h]
  rfl

theorem Failure.Listed.within {s : Source} {f : Failure} (h : f.Listed s) (label : Text)
    (i : Nat) : (f.within label i).Listed s := by
  cases h with
  | mark hc ht => exact .mark hc ht
  | token hc ht => exact .token hc ht
  | openString hc hend => exact .openString hc hend
  | openBlock hc hend hframe =>
    obtain ⟨j, hj⟩ := hframe
    exact .openBlock hc hend ⟨j, innermost?_within hj label i⟩
  | statement hc => exact .statement hc
  | elseBranch hc => exact .elseBranch hc

theorem Failure.Listed.asCommitted {s : Source} {f : Failure} (h : f.Listed s) :
    f.asCommitted.Listed s := by
  cases h with
  | mark hc ht => exact .mark hc ht
  | token hc ht => exact .token hc ht
  | openString hc hend => exact .openString hc hend
  | openBlock hc hend hframe => exact .openBlock hc hend hframe
  | statement hc => exact .statement hc
  | elseBranch hc => exact .elseBranch hc

namespace Parser

variable {α β γ : Type} {U V : Source → Nat → Failure → Prop}

/-- All failures of the parser are listed. -/
def FailsListed (p : Parser α) : Prop :=
  ∀ ⦃s : Source⦄ ⦃c : Cursor⦄ ⦃f : Failure⦄, c.offset ≤ s.length → p s c = .failed f → f.Listed s

/-- All committed failures of the parser are listed. -/
def CommitsListed (p : Parser α) : Prop :=
  ∀ ⦃s : Source⦄ ⦃c : Cursor⦄ ⦃f : Failure⦄, c.offset ≤ s.length → p s c = .failed f →
    f.committed = true → f.Listed s

/-- All committed failures of the parser are listed, and those that are not committed are related
to the offset where it starts. -/
def FailsAs (p : Parser α) (U : Source → Nat → Failure → Prop) : Prop :=
  ∀ ⦃s : Source⦄ ⦃c : Cursor⦄ ⦃f : Failure⦄, c.offset ≤ s.length → p s c = .failed f →
    f.committed = true ∧ f.Listed s ∨ f.committed = false ∧ U s c.offset f

/-- All failures of the parser are committed and listed. -/
abbrev FailsCommitted (p : Parser α) : Prop := p.FailsAs fun _ _ _ => False

/-- The failure at an offset that has a cause and no frames, and is not committed. -/
abbrev Bare (cause : Cause) (_ : Source) (i : Nat) (f : Failure) : Prop :=
  f = { cause, offset := i }

section Combinators

variable {p : Parser α}

theorem FailsAs.imp (hp : p.FailsAs U) (h : ∀ s i f, U s i f → V s i f) : p.FailsAs V := by
  intro s c f hc hf
  obtain hcom | ⟨hcom, hu⟩ := hp hc hf
  · exact .inl hcom
  · exact .inr ⟨hcom, h s c.offset f hu⟩

theorem FailsAs.listed (hp : p.FailsAs U) (h : ∀ s i f, U s i f → f.Listed s) :
    p.FailsListed := by
  intro s c f hc hf
  obtain ⟨-, hl⟩ | ⟨-, hu⟩ := hp hc hf
  · exact hl
  · exact h s c.offset f hu

theorem FailsAs.listed_of_bare {cause : Cause} (hp : p.FailsAs (Bare cause))
    (h : ∀ s i, ({ cause, offset := i } : Failure).Listed s) : p.FailsListed := by
  apply hp.listed
  rintro s i _ rfl
  exact h s i

theorem FailsAs.commitsListed (hp : p.FailsAs U) : p.CommitsListed := by
  intro s c f hc hf hcom
  obtain ⟨-, hl⟩ | ⟨hopen, -⟩ := hp hc hf
  · exact hl
  · rw [hcom] at hopen
    cases hopen

theorem FailsAs.of_open {s : Source} {c : Cursor} {f : Failure} (hp : p.FailsAs U)
    (hc : c.offset ≤ s.length) (hf : FailsOpen s c p f) : U s c.offset f := by
  obtain ⟨hcom, -⟩ | ⟨-, hu⟩ := hp hc hf.1
  · rw [hf.2] at hcom
    cases hcom
  · exact hu

theorem FailsCommitted.listed (hp : p.FailsCommitted) : p.FailsListed :=
  FailsAs.listed hp fun _ _ _ h => h.elim

theorem FailsListed.pure (a : α) : (pure a : Parser α).FailsListed :=
  fun _ _ _ _ hf => nomatch hf

theorem FailsCommitted.pure (a : α) : (pure a : Parser α).FailsCommitted :=
  fun _ _ _ _ hf => nomatch hf

theorem FailsAs.bind {g : α → Parser β} (hp : p.FailsAs U) (hw : p.WellBehaved)
    (hg : ∀ a, (g a).FailsCommitted) : (p >>= g).FailsAs U := by
  intro s c f hc hf
  obtain hf | ⟨d, a, ha, hf⟩ := bind_eq_failed.1 hf
  · exact hp hc hf
  · obtain hl | ⟨-, h⟩ := hg a (hw.advances hc ha).2 hf
    · exact .inl hl
    · exact h.elim

theorem FailsListed.bind {g : α → Parser β} (hp : p.FailsListed) (hw : p.WellBehaved)
    (hg : ∀ a, (g a).FailsListed) : (p >>= g).FailsListed := by
  intro s c f hc hf
  obtain hf | ⟨d, a, ha, hf⟩ := bind_eq_failed.1 hf
  · exact hp hc hf
  · exact hg a (hw.advances hc ha).2 hf

theorem CommitsListed.bind {g : α → Parser β} (hp : p.CommitsListed) (hw : p.WellBehaved)
    (hg : ∀ a, (g a).CommitsListed) : (p >>= g).CommitsListed := by
  intro s c f hc hf
  obtain hf | ⟨d, a, ha, hf⟩ := bind_eq_failed.1 hf
  · exact hp hc hf
  · exact hg a (hw.advances hc ha).2 hf

theorem FailsAs.seqRight {q : Parser β} (hp : p.FailsAs U) (hw : p.WellBehaved)
    (hq : q.FailsCommitted) : (p *> q).FailsAs U := by
  intro s c f hc hf
  exact hp.bind hw (fun _ => hq) hc hf

theorem FailsListed.seqRight {q : Parser β} (hp : p.FailsListed) (hw : p.WellBehaved)
    (hq : q.FailsListed) : (p *> q).FailsListed := by
  intro s c f hc hf
  exact hp.bind hw (fun _ => hq) hc hf

theorem CommitsListed.seqRight {q : Parser β} (hp : p.CommitsListed) (hw : p.WellBehaved)
    (hq : q.CommitsListed) : (p *> q).CommitsListed := by
  intro s c f hc hf
  exact hp.bind hw (fun _ => hq) hc hf

theorem FailsListed.seqLeft {q : Parser β} (hp : p.FailsListed) (hw : p.WellBehaved)
    (hq : q.FailsListed) : (p <* q).FailsListed := by
  intro s c f hc hf
  obtain hf | ⟨d, a, ha, hf⟩ := seqLeft_eq_failed.1 hf
  · exact hp hc hf
  · exact hq (hw.advances hc ha).2 hf

theorem FailsCommitted.trivia : trivia.FailsCommitted := fun _ _ _ _ hf => nomatch hf

theorem FailsListed.spaced (hp : p.FailsListed) : (spaced p).FailsListed :=
  FailsCommitted.trivia.listed.seqRight .trivia hp

theorem CommitsListed.spaced (hp : p.CommitsListed) : (spaced p).CommitsListed :=
  FailsCommitted.trivia.commitsListed.seqRight .trivia hp

theorem FailsListed.between {q : Parser β} {r : Parser γ} (hp : p.FailsListed) (hw : p.WellBehaved)
    (hq : q.FailsListed) (hw' : q.WellBehaved) (hr : r.FailsListed) :
    (between p q r).FailsListed :=
  (hp.seqRight hw hq).seqLeft (hw.seqRight hw') hr

theorem FailsAs.map (hp : p.FailsAs U) (g : α → β) : (g <$> p).FailsAs U := by
  intro s c f hc hf
  exact hp hc (map_eq_failed.1 hf)

theorem CommitsListed.mapSpan (hp : p.CommitsListed) (g : α → Span → β) :
    (mapSpan p g).CommitsListed := by
  intro s c f hc hf
  exact hp hc (mapSpan_eq_failed.1 hf)

theorem FailsAs.mapSpan (hp : p.FailsAs U) (g : α → Span → β) : (mapSpan p g).FailsAs U := by
  intro s c f hc hf
  exact hp hc (mapSpan_eq_failed.1 hf)

/-- The failure has one frame more. -/
abbrev Framed (label : Text) (U : Source → Nat → Failure → Prop) (s : Source) (i : Nat)
    (f : Failure) : Prop :=
  ∃ g, U s i g ∧ g.within label i = f

theorem FailsAs.labelled (hp : p.FailsAs U) (label : Text) :
    (labelled label p).FailsAs (Framed label U) := by
  intro s c f hc hf
  obtain ⟨g, hg, rfl⟩ := labelled_eq_failed.1 hf
  obtain ⟨hcom, hl⟩ | ⟨hcom, hu⟩ := hp hc hg
  · exact .inl ⟨hcom, hl.within label c.offset⟩
  · exact .inr ⟨hcom, g, hu, rfl⟩

theorem FailsListed.committed (hp : p.FailsListed) : (committed p).FailsCommitted := by
  intro s c f hc hf
  obtain ⟨g, hg, rfl⟩ := committed_eq_failed.1 hf
  exact .inl ⟨rfl, (hp hc hg).asCommitted⟩

theorem tooDeep_committed : (tooDeep : Parser α).FailsCommitted := by
  rintro s c _ hc ⟨⟩
  exact .inl ⟨rfl, .token rfl (by decide)⟩

theorem FailsAs.deeper (hp : p.FailsAs U) : (deeper p).FailsAs U := by
  intro s c f hc hf
  obtain ⟨-, hf⟩ | ⟨-, hf⟩ := deeper_eq_failed.1 hf
  · exact tooDeep_committed.imp (fun _ _ _ h => h.elim) hc hf
  · exact hp (c := ⟨c.offset, c.depth + 1⟩) hc hf

theorem FailsListed.deeper (hp : p.FailsListed) : (deeper p).FailsListed := by
  intro s c f hc hf
  obtain ⟨-, hf⟩ | ⟨-, hf⟩ := deeper_eq_failed.1 hf
  · exact tooDeep_committed.listed hc hf
  · exact hp (c := ⟨c.offset, c.depth + 1⟩) hc hf

theorem CommitsListed.optional (hp : p.CommitsListed) : (optional p).FailsCommitted := by
  intro s c f hc hf
  obtain ⟨hf, hcom⟩ := optional_eq_failed.1 hf
  exact .inl ⟨hcom, hp hc hf hcom⟩

theorem CommitsListed.many (hp : p.CommitsListed) (hw : p.WellBehaved) :
    (many p).FailsCommitted := by
  intro s c f hc hf
  obtain ⟨as, d, hchain, hf, hcom⟩ := Chain.of_many_failed hw.advances hc hf
  have hd := hchain.le_length hw.advances hc
  exact .inl ⟨hcom, hp hd hf hcom⟩

theorem CommitsListed.sepBy {separator : Parser β} (hp : p.CommitsListed) (hw : p.WellBehaved)
    (hs : separator.CommitsListed) (hw' : separator.WellBehaved) :
    (sepBy p separator).FailsCommitted := by
  intro s c f hc hf
  obtain ⟨hf, hcom⟩ | ⟨d, a, ha, hf⟩ := sepBy_eq_failed.1 hf
  · exact .inl ⟨hcom, hp hc hf hcom⟩
  · exact (hs.seqRight hw' hp).many (hw'.seqRight hw) (hw.advances hc ha).2 hf

/-- An expectation in place of the failures at the start; what holds where they arise is kept. -/
theorem FailsAs.describedAs {V : Source → Nat → Prop}
    (hp : p.FailsAs fun s i f => f.offset = i ∧ V s i) (description : Text) :
    (describedAs description p).FailsAs fun s i f => Bare (.token description) s i f ∧ V s i := by
  intro s c f hc hf
  obtain ⟨g, hg, ⟨hcom, rfl⟩ | ⟨⟨hopen, -⟩, rfl⟩⟩ := describedAs_eq_failed.1 hf
  · obtain hl | ⟨hopen, hoffset, -⟩ := hp hc hg
    · exact .inl hl
    · rcases hcom with hcom | hlt
      · rw [hcom] at hopen
        cases hopen
      · omega
  · exact .inr ⟨rfl, rfl, (hp.of_open hc ⟨hg, hopen⟩).2⟩

theorem FailsAs.literal (t : Text) : (literal t).FailsAs (Bare (.literal t)) := by
  intro s c f hc hf
  obtain ⟨-, rfl⟩ := literal_eq_failed.1 hf
  exact .inr ⟨rfl, rfl⟩

theorem FailsAs.keyword (word : Text) : (keyword word).FailsAs (Bare (.literal word)) := by
  intro s c f hc hf
  obtain ⟨-, rfl⟩ := literalBefore_eq_failed.1 hf
  exact .inr ⟨rfl, rfl⟩

theorem FailsListed.literal {t : Text} (ht : t ∈ ([";", ")", "(", "\x7b", "="] : List Text)) :
    (literal t).FailsListed :=
  (FailsAs.literal t).listed_of_bare fun _ _ => .mark rfl ht

/-- Where all alternatives fail and none for good, their failures are related to the start. -/
theorem FailsAs.choice {ps : List (Parser α)} (h : ∀ p ∈ ps, p.CommitsListed)
    (hopen : ∀ ⦃s : Source⦄ ⦃c : Cursor⦄ ⦃fs : List Failure⦄, c.offset ≤ s.length →
      List.Forall₂ (FailsOpen s c) ps fs → U s c.offset (Failure.merge c.offset fs)) :
    (choice ps).FailsAs U := by
  intro s c f hc hf
  obtain ⟨p, hp, hf, hcom⟩ | ⟨fs, hfs, rfl⟩ := choice_eq_failed hf
  · exact .inl ⟨hcom, h p hp hc hf hcom⟩
  · have hcommitted := List.Forall₂.forall_mem_right hfs fun _ _ _ h => h.2
    exact .inr ⟨merge_committed hcommitted, hopen hc hfs⟩

theorem FailsAs.choice_where (ps : List (Parser α)) {H : Source → Nat → Prop}
    (h : ∀ p ∈ ps, p.FailsAs fun s i f => H s i → f.offset = i) (hlen : ps.length ≠ 1) :
    (Parser.choice ps).FailsAs fun s i f => H s i → f.offset = i := by
  refine .choice (fun p hp => (h p hp).commitsListed) fun s c fs hc hfs hcond => ?_
  have hhere : ∀ f ∈ fs, f.offset = c.offset :=
    List.Forall₂.forall_mem_right hfs fun p hp f hf => (h p hp).of_open hc hf hcond
  rw [Failure.merge_of_offset hhere (by rwa [← hfs.length_eq])]

theorem FailsAs.choice_here (ps : List (Parser α))
    (h : ∀ p ∈ ps, p.FailsAs fun _ i f => f.offset = i) (hlen : ps.length ≠ 1) :
    (Parser.choice ps).FailsAs fun _ i f => f.offset = i := by
  have hall := FailsAs.choice_where ps (H := fun _ _ => True)
    (fun p hp => (h p hp).imp fun _ _ _ hf _ => hf) hlen
  exact hall.imp fun _ _ _ hf => hf trivial

theorem FailsAs.choice_of_mem {ps : List (Parser α)} (h : (Parser.choice ps).FailsAs U)
    (hmem : p ∈ ps) (hp : p.FailsAs V) :
    (Parser.choice ps).FailsAs fun s i f => U s i f ∧ ∃ g, V s i g := by
  intro s c f hc hf
  obtain hl | ⟨hopen, hu⟩ := h hc hf
  · exact .inl hl
  obtain ⟨q, -, -, hcom⟩ | ⟨fs, hfs, -⟩ := choice_eq_failed hf
  · rw [hopen] at hcom
    cases hcom
  · obtain ⟨g, hg⟩ := List.Forall₂.exists_of_mem_left hfs hmem
    exact .inr ⟨hopen, hu, g, hp.of_open hc hg⟩

/-- The alternative fails where it stands and blames a cause. -/
abbrev Blames (p : Parser α) (cause : Cause) : Prop :=
  p.FailsAs fun _ i f => f.cause = cause ∧ f.offset = i

theorem open_of_blames {ps : List (Parser α)} {causes : List Cause} {last : Parser α} {s : Source}
    {c : Cursor} {fs : List Failure} (h : List.Forall₂ Blames ps causes) (hc : c.offset ≤ s.length)
    (hfs : List.Forall₂ (FailsOpen s c) (ps ++ [last]) fs) :
    ∃ gs f, fs = gs ++ [f] ∧ gs.map Failure.cause = causes ∧ (∀ g ∈ gs, g.offset = c.offset) ∧
      FailsOpen s c last f := by
  induction h generalizing fs with
  | nil =>
    obtain _ | ⟨hf, _ | _⟩ := hfs
    exact ⟨[], _, rfl, rfl, nofun, hf⟩
  | cons hp hps ih =>
    obtain _ | ⟨hf, hfs⟩ := hfs
    obtain ⟨gs, f, rfl, rfl, hgs, hlast⟩ := ih hfs
    obtain ⟨rfl, hoffset⟩ := hp.of_open hc hf
    exact ⟨_ :: gs, f, rfl, rfl, List.forall_mem_cons.2 ⟨hoffset, hgs⟩, hlast⟩

/-- Of alternatives of which only the last one may get beyond the start, that one's failure is told
if it does, and else the causes of all of them. -/
theorem FailsAs.choice_blames {ps : List (Parser α)} {causes : List Cause} {last : Parser α}
    {cause : Cause} (h : List.Forall₂ Blames ps causes)
    (hlast : last.FailsAs fun s i f => f.cause = cause ∧ f.offset = i ∨ i < f.offset ∧ V s i f)
    (hne : ps ≠ []) :
    (Parser.choice (ps ++ [last])).FailsAs fun s i f =>
      Bare (.alternatives (Cause.flatten (causes ++ [cause]))) s i f ∨ i < f.offset ∧ V s i f := by
  refine .choice (fun p hp => ?_) fun s c fs hc hfs => ?_
  · rcases List.mem_append.1 hp with hp | hp
    · obtain ⟨cause, hp⟩ := List.Forall₂.exists_of_mem_left h hp
      exact hp.commitsListed
    · rw [List.mem_singleton.1 hp]
      exact hlast.commitsListed
  · obtain ⟨gs, f, rfl, rfl, hgs, hf⟩ := open_of_blames h hc hfs
    obtain ⟨rfl, hoffset⟩ | ⟨hlt, hv⟩ := hlast.of_open hc hf
    · have hhere : ∀ g ∈ gs ++ [f], g.offset = c.offset :=
        List.forall_mem_append.2 ⟨hgs, List.forall_mem_singleton.2 hoffset⟩
      have hlen : (gs ++ [f]).length ≠ 1 := by
        have hps := h.length_eq
        rw [List.length_map] at hps
        have := List.length_pos_iff.2 hne
        rw [List.length_append, List.length_singleton]
        omega
      rw [Failure.merge_of_offset hhere hlen, List.map_append, List.map_singleton]
      exact .inl rfl
    · rw [Failure.merge_snoc hgs hlt]
      exact .inr ⟨hlt, hv⟩

theorem FailsAs.here {cause : Cause} (hp : p.FailsAs (Bare cause)) :
    p.FailsAs fun _ i f => f.offset = i := by
  apply hp.imp
  rintro s i _ rfl
  rfl

end Combinators

end Parser

end BrookSyntax
