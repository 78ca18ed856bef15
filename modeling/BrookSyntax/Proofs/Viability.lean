import BrookSyntax.Proofs.ExprCommitment
import BrookSyntax.Proofs.ExprSoundness
import BrookSyntax.Proofs.TokenLanguages

namespace BrookSyntax

open Phrases Source
open scoped Computability

/-- The phrases start with a token that is not the sign of an equality or its beginning. -/
def Phrases.AvoidsSign (L : Language Token) : Prop :=
  ∀ ts ∈ L, ∃ t rest, ts = t :: rest ∧ ¬ t.kind.Starts (CodeUnit.of '=')

theorem Phrases.expr_avoidsSign (n : Nat) : AvoidsSign (expr n) := by
  rintro _ ⟨k, e, h⟩
  obtain ⟨t, rest, rfl, ht⟩ := h.starts
  exact ⟨t, rest, rfl, fun hs => ht.ne_sign hs rfl⟩

namespace Source

variable {s : Source} {L M : Language Token} {i j n : Nat} {ts : List Token}
  {kinds : List TokenKind} {m : Text}

theorem LexedAfter.not_sign (h : s.LexedAfter i ts j) (hi : i ≤ s.length) (hL : AvoidsSign L)
    (hts : ts ∈ L) : s.unit? i ≠ some (CodeUnit.of '=') := by
  intro hu
  obtain ⟨t, rest, rfl, ht⟩ := hL ts hts
  exact ht (h.starts hi hu (noTriviaAt_of_unit hu rfl (by decide)))

theorem Extends.not_sign (h : s.Extends i ts kinds) (hi : i ≤ s.length) (hL : AvoidsSign L)
    (hc : Completes L ts kinds) : s.unit? i ≠ some (CodeUnit.of '=') := by
  intro hu
  obtain ⟨kind, rest, hkinds, hs⟩ := h.starts hi hu (noTriviaAt_of_unit hu rfl (by decide))
  let us := kinds.map fun kind => (⟨kind, default⟩ : Token)
  have hus : us.map Token.kind = kinds := by
    rw [List.map_map]
    exact List.map_id' kinds
  obtain ⟨t, rest', hts, ht⟩ := hL _ (hc us hus)
  have hall := congrArg (List.map Token.kind) hts
  rw [List.map_append, hus, hkinds, List.map_cons, List.cons.injEq] at hall
  exact ht (hall.1 ▸ hs)

/-- From one offset to another one stands the beginning of a phrase: tokens which, with others that
can be written after the cut, are a phrase of the language. -/
structure Viable (s : Source) (L : Language Token) (i n : Nat) : Prop where
  le : i ≤ n
  le_length : n ≤ s.length
  completed : ∃ ts kinds, (s.cut n).Extends i ts kinds ∧ Completes L ts kinds

namespace Viable

theorem here (hi : i ≤ s.length) (hL : Writable L) : s.Viable L i i := by
  obtain ⟨kinds, hk, hL⟩ := hL
  have hawaits := Awaits.tokens (s := s.cut i) hk
  rw [length_cut hi] at hawaits
  exact ⟨Nat.le_refl i, hi, [], kinds, ⟨i, i, .inl ⟨rfl, rfl⟩, .refl i, hawaits⟩, hL⟩

theorem mono (h : s.Viable L i n) (hLM : L ≤ M) : s.Viable M i n := by
  obtain ⟨hle, hn, ts, kinds, hext, hL⟩ := h
  exact ⟨hle, hn, ts, kinds, hext, hL.mono hLM⟩

theorem append (h : s.Viable L i n) (hM : Writable M) : s.Viable (L * M) i n := by
  obtain ⟨hle, hn, ts, kinds, hext, hL⟩ := h
  obtain ⟨kinds', hk, hM⟩ := hM
  exact ⟨hle, hn, ts, kinds ++ kinds', hext.append hk, hL.append hM⟩

theorem after (h : s.Viable M j n) (hl : s.LexedAfter i ts j) (hi : i ≤ s.length) (hts : ts ∈ L) :
    s.Viable (L * M) i n := by
  obtain ⟨hle, hn, us, kinds, hext, hM⟩ := h
  have hij := (hl.bounds hi).1
  exact ⟨Nat.le_trans hij hle, hn, _, kinds, hext.after_tokens (hl.cut hi hle hn), hM.after hts⟩

theorem after_trivia (h : s.Viable L (s.skip i) n) (hi : i ≤ s.length) : s.Viable L i n := by
  obtain ⟨hle, hn, ts, kinds, hext, hL⟩ := h
  have htrivia := (triviaAt_skip hi).cut hle hn
  exact ⟨Nat.le_trans (le_skip hi) hle, hn, ts, kinds, hext.after_trivia htrivia, hL⟩

/-- A mark before a phrase that does not start with the sign of an equality. In the source it may be
the beginning of a longer mark; in what stands before the cut it is not. -/
theorem after_mark (h : s.Viable M (i + m.length) n) (hm : m ∈ marks)
    (hne : m.head? ≠ some (CodeUnit.of '/')) (hat : s.hasAt i m = true) (hM : AvoidsSign M) :
    s.Viable (mark m * M) i n := by
  obtain ⟨hle, hn, ts, kinds, hext, hcomp⟩ := h
  have hcut : (s.cut n).hasAt i m = true := by rwa [hasAt_cut hn hle]
  have hlen : i + m.length ≤ (s.cut n).length := by rwa [length_cut hn]
  have htoken := tokenAt_of_no_sign hm hcut (noComment_of_mark hm hcut hne)
    (hext.not_sign hlen hM hcomp)
  exact ⟨by omega, hn, _, kinds, hext.after_tokens (LexedAt.single htoken).after_here,
    hcomp.after ⟨_, rfl⟩⟩

theorem string {a b v : Text} (hat : s.hasAt i (CodeUnit.quote :: a) = true)
    (hn : i + (CodeUnit.quote :: a).length = n) (hlen : n ≤ s.length) (hv : Spells (a ++ b) v) :
    s.Viable (token (.string v)) i n := by
  have hopens : (s.cut n).OpensString i v := by
    refine ⟨a, b, ?_, ?_, hv⟩
    · rwa [hasAt_cut hlen (Nat.le_of_eq hn)]
    · rwa [length_cut hlen]
  have hext : (s.cut n).Extends i [] [.string v] :=
    ⟨i, i, .inl ⟨rfl, rfl⟩, .refl i, .string hopens nofun⟩
  exact ⟨by omega, hlen, [], [.string v], hext, completes_token _⟩

end Viable

end Source

theorem Repeated.mem_kstar {α : Type} {L : Language Token} {ts : List Token} {as : List α}
    (h : Repeated (fun ts _ => ts ∈ L) ts as) : ts ∈ L∗ := by
  induction h with
  | nil => exact Language.nil_mem_kstar L
  | cons hts hs ih =>
    have hle : L * L∗ ≤ L∗ := mul_kstar_le_kstar
    exact hle (Language.append_mem_mul hts ih)

namespace Parser

variable {α β γ : Type} {L M : Language Token} {s : Source} {c d : Cursor} {f : Failure}

/-- The parser fails only where it stands. -/
def FailsHere (p : Parser α) : Prop :=
  ∀ ⦃s : Source⦄ ⦃c : Cursor⦄ ⦃f : Failure⦄, p s c = .failed f → f.offset = c.offset

/-- What the parser reads are phrases of a language, and what stands before its failures are
beginnings of phrases. Some phrase can be written, in place of any that is still missing. -/
structure Follows (p : Parser α) (L : Language Token) : Prop where
  writable : Writable L
  reads : ∀ n, p.ReadsAfter n fun ts _ => ts ∈ L
  viable : ∀ ⦃s : Source⦄ ⦃c : Cursor⦄ ⦃f : Failure⦄, c.offset ≤ s.length → p s c = .failed f →
    s.Viable L c.offset f.offset

section Here

variable {p : Parser α} {q : Parser β}

theorem FailsHere.literal (t : Text) : (literal t).FailsHere := by
  intro s c f hf
  obtain ⟨-, rfl⟩ := literal_eq_failed.1 hf
  rfl

theorem FailsHere.literalBefore (t : Text) (forbidden : Option CodeUnit → Bool) :
    (literalBefore t forbidden).FailsHere := by
  intro s c f hf
  obtain ⟨-, rfl⟩ := literalBefore_eq_failed.1 hf
  rfl

theorem FailsHere.satisfy (test : CodeUnit → Bool) (description : Text) :
    (satisfy test description).FailsHere := by
  intro s c f hf
  obtain rfl := satisfy_eq_failed hf
  rfl

/-- A parser that fails where it stands, before others that do not fail. -/
theorem FailsHere.seqRight (hp : p.FailsHere) (hq : ∀ s d f, q s d ≠ .failed f) :
    (p *> q).FailsHere := by
  intro s c f hf
  obtain hf | ⟨d, a, -, hf⟩ := seqRight_eq_failed.1 hf
  · exact hp hf
  · exact absurd hf (hq s d f)

theorem FailsHere.map (hp : p.FailsHere) (g : α → β) : (g <$> p).FailsHere :=
  fun _ _ _ hf => hp (map_eq_failed.1 hf)

theorem FailsHere.choice {ps : List (Parser α)} (h : ∀ p ∈ ps, p.FailsHere) :
    (choice ps).FailsHere := by
  intro s c f hf
  obtain ⟨p, hp, hf, -⟩ | ⟨fs, hfs, rfl⟩ := choice_eq_failed hf
  · exact h p hp hf
  · have hoffsets := List.Forall₂.forall_mem_right (P := fun f => f.offset = c.offset) hfs
      fun p hp g hg => h p hp hg.1
    obtain hhere | hmem := Failure.merge_offset c.offset fs
    · exact hhere
    · exact hoffsets _ hmem

theorem FailsHere.follows (hp : p.FailsHere) (hL : Writable L)
    (hr : ∀ n, p.ReadsAfter n fun ts _ => ts ∈ L) : p.Follows L where
  writable := hL
  reads := hr
  viable s c f hc hf := by
    rw [hp hf]
    exact .here hc hL

end Here

theorem comma_seqRight (p : Parser α) :
    Grammar.comma *> p = spaced (Parser.literal ",") *> spaced p := by
  funext s c
  rw [seqRight_apply, seqRight_apply, Grammar.comma, seqRight_apply]
  cases spaced (Parser.literal ",") s c <;> rfl

namespace Follows

section Basics

variable {p : Parser α} {q : Parser β}

theorem advances (hp : p.Follows L) : p.Advances := by
  intro s c d a hc hok
  obtain ⟨-, ts, hl, -⟩ := hp.reads _ hc rfl hok
  exact hl.bounds hc

theorem mono (hp : p.Follows L) (hLM : L ≤ M) : p.Follows M where
  writable := hp.writable.mono hLM
  reads n := (hp.reads n).imp fun _ _ hts => hLM hts
  viable _ _ _ hc hf := (hp.viable hc hf).mono hLM

theorem of_same (hp : p.Follows L)
    (hok : ∀ s c d b, q s c = .ok d b → ∃ a, p s c = .ok d a)
    (hfailed : ∀ s c f, q s c = .failed f → ∃ g, p s c = .failed g ∧ g.offset = f.offset) :
    q.Follows L where
  writable := hp.writable
  reads n s c d b hc hn hq := by
    obtain ⟨a, ha⟩ := hok s c d b hq
    exact hp.reads n hc hn ha
  viable s c f hc hq := by
    obtain ⟨g, hg, hgf⟩ := hfailed s c f hq
    rw [← hgf]
    exact hp.viable hc hg

theorem map (hp : p.Follows L) (g : α → β) : (g <$> p).Follows L := by
  refine hp.of_same (fun s c d b h => ?_) fun s c f h => ⟨f, map_eq_failed.1 h, rfl⟩
  obtain ⟨a, ha, -⟩ := map_eq_ok.1 h
  exact ⟨a, ha⟩

theorem mapSpan (hp : p.Follows L) (g : α → Span → β) : (mapSpan p g).Follows L := by
  refine hp.of_same (fun s c d b h => ?_) fun s c f h => ⟨f, mapSpan_eq_failed.1 h, rfl⟩
  obtain ⟨a, ha, -⟩ := mapSpan_eq_ok.1 h
  exact ⟨a, ha⟩

theorem labelled (hp : p.Follows L) (label : Text) : (labelled label p).Follows L := by
  refine hp.of_same (fun s c d a h => ⟨a, labelled_eq_ok.1 h⟩) fun s c f h => ?_
  obtain ⟨g, hg, rfl⟩ := labelled_eq_failed.1 h
  exact ⟨g, hg, rfl⟩

theorem committed (hp : p.Follows L) : (committed p).Follows L := by
  refine hp.of_same (fun s c d a h => ⟨a, committed_eq_ok.1 h⟩) fun s c f h => ?_
  obtain ⟨g, hg, rfl⟩ := committed_eq_failed.1 h
  exact ⟨g, hg, rfl⟩

theorem describedAs (hp : p.Follows L) (description : Text) :
    (describedAs description p).Follows L where
  writable := hp.writable
  reads n _ _ _ _ hc hn hok := hp.reads n hc hn (describedAs_eq_ok.1 hok)
  viable s c f hc hf := by
    obtain ⟨g, hg, ⟨-, rfl⟩ | ⟨-, rfl⟩⟩ := describedAs_eq_failed.1 hf
    · exact hp.viable hc hg
    · exact .here hc hp.writable

theorem deeper (hp : p.Follows L) : (deeper p).Follows L where
  writable := hp.writable
  reads _ := by
    apply (ReadsAfter.deeper fun k _ => hp.reads k).imp
    rintro ts a ⟨k, -, hts⟩
    exact hts
  viable s c f hc hf := by
    obtain ⟨-, hdeep⟩ | ⟨-, hf⟩ := deeper_eq_failed.1 hf
    · cases hdeep
      exact .here hc hp.writable
    · exact hp.viable (c := ⟨c.offset, c.depth + 1⟩) hc hf

theorem tooDeep (hL : Writable L) : (tooDeep : Parser α).Follows L where
  writable := hL
  reads _ _ _ _ _ _ _ hok := nomatch hok
  viable s c f hc hf := by
    cases hf
    exact .here hc hL

theorem spaced (hp : p.Follows L) (hL : [] ∉ L) : (spaced p).Follows L where
  writable := hp.writable
  reads n s c d a hc hn hok := by
    obtain ⟨hd, ts, hl, hts⟩ := hp.reads n (c := ⟨_, c.depth⟩) (skip_le hc) hn hok
    refine ⟨hd, ts, hl.of_skip hc ?_, hts⟩
    rintro rfl
    exact hL hts
  viable s c f hc hf := (hp.viable (c := ⟨_, c.depth⟩) (skip_le hc) hf).after_trivia hc

end Basics

section Sequences

theorem pure (a : α) : (pure a : Parser α).Follows 1 where
  writable := .one
  reads _ := (ReadsAfter.pure a).imp fun _ _ h => h.1
  viable _ _ _ _ hf := nomatch hf

theorem bind [Inhabited α] {p : Parser α} {g : α → Parser β} (hp : p.Follows L)
    (hg : ∀ a, (g a).Follows M) : (p >>= g).Follows (L * M) where
  writable := hp.writable.mul (hg default).writable
  reads n := by
    apply ((hp.reads n).bind fun a => (hg a).reads n).imp
    rintro _ b ⟨us, vs, a, rfl, hus, hvs⟩
    exact Language.append_mem_mul hus hvs
  viable s c f hc hf := by
    obtain hf | ⟨d, a, ha, hf⟩ := bind_eq_failed.1 hf
    · exact (hp.viable hc hf).append (hg default).writable
    · obtain ⟨-, ts, hl, hts⟩ := hp.reads _ hc rfl ha
      exact ((hg a).viable (hl.bounds hc).2 hf).after hl hc hts

theorem seqRight [Inhabited α] {p : Parser α} {q : Parser β} (hp : p.Follows L)
    (hq : q.Follows M) : (p *> q).Follows (L * M) := hp.bind fun _ => hq

theorem seqLeft [Inhabited α] [Inhabited β] {p : Parser α} {q : Parser β} (hp : p.Follows L)
    (hq : q.Follows M) : (p <* q).Follows (L * M) := by
  have h := hp.bind fun a => hq.bind fun _ => Follows.pure a
  rw [mul_one] at h
  exact h

/-- The parser is one of several, by the room that there is for constructs inside one another. -/
theorem of_room {rule : Nat → Parser α} (h : ∀ n, (rule n).Follows L) :
    Follows (fun s c => rule c.room s c) L where
  writable := (h 0).writable
  reads n _ c _ _ hc hn hok := (h c.room).reads n hc hn hok
  viable _ c _ hc hf := (h c.room).viable hc hf

theorem bind_mark [Inhabited α] {p : Parser α} {g : α → Parser β} (hL : Writable L)
    (hp : p.FailsHere)
    (hmark : ∀ s c d a, c.offset ≤ s.length → p s c = .ok d a →
      ∃ m ∈ marks, m.head? ≠ some (CodeUnit.of '/') ∧ s.hasAt c.offset m = true ∧
        ⟨c.offset + m.length, c.depth⟩ = d ∧ Phrases.mark m ≤ L)
    (hg : ∀ a, (g a).Follows M) (hM : AvoidsSign M) : (p >>= g).Follows (L * M) where
  writable := hL.mul (hg default).writable
  reads n s c d b hc hn hok := by
    obtain ⟨e, a, ha, hb⟩ := bind_eq_ok.1 hok
    obtain ⟨m, hm, hne, hat, rfl, hmL⟩ := hmark s c e a hc ha
    have hlen := add_length_le hat hc
    obtain ⟨hd, ts, hl, hts⟩ := (hg a).reads n (c := ⟨_, c.depth⟩) hlen hn hb
    have htoken := tokenAt_of_no_sign hm hat (noComment_of_mark hm hat hne)
      (hl.not_sign hlen hM hts)
    exact ⟨hd, _, (LexedAt.single htoken).after_here.append hl,
      Language.append_mem_mul (hmL ⟨_, rfl⟩) hts⟩
  viable s c f hc hf := by
    obtain hf | ⟨d, a, ha, hf⟩ := bind_eq_failed.1 hf
    · rw [hp hf]
      exact .here hc (hL.mul (hg default).writable)
    · obtain ⟨m, hm, hne, hat, rfl, hmL⟩ := hmark s c d a hc ha
      have h := (hg a).viable (c := ⟨_, c.depth⟩) (add_length_le hat hc) hf
      exact (h.after_mark hm hne hat hM).mono (mul_le_mul_left hmL M)

end Sequences

section Tokens

theorem literal {m : Text} (hm : PlainMark m) : (literal m).Follows (mark m) := by
  apply (FailsHere.literal m).follows (mark_writable hm.1)
  intro n
  exact (Reads.literal hm).after

theorem keyword {w : Text} (hw : w ∈ keywords) : (keyword w).Follows (Phrases.keyword w) := by
  apply (FailsHere.literalBefore w _).follows (keyword_writable hw)
  intro n
  exact (Reads.keyword hw).after

end Tokens

section Choices

variable {p : Parser α}

theorem choice {ps : List (Parser α)} (hL : Writable L) (h : ∀ p ∈ ps, p.Follows L) :
    (choice ps).Follows L where
  writable := hL
  reads n s c d a hc hn hok := by
    induction ps with
    | nil => exact absurd hok choice_nil_ne_ok
    | cons p ps ih =>
      rw [List.forall_mem_cons] at h
      obtain hp | ⟨-, hps⟩ := choice_cons_eq_ok.1 hok
      · exact h.1.reads n hc hn hp
      · exact ih h.2 hps
  viable s c f hc hf := by
    obtain ⟨p, hp, hf, -⟩ | ⟨fs, hfs, rfl⟩ := choice_eq_failed hf
    · exact (h p hp).viable hc hf
    · have hviable := List.Forall₂.forall_mem_right (P := fun f => s.Viable L c.offset f.offset) hfs
        fun p hp g hg => (h p hp).viable hc hg.1
      obtain hhere | hmem := Failure.merge_offset c.offset fs
      · rw [hhere]
        exact .here hc hL
      · exact hviable _ hmem

theorem optional (hp : p.Follows L) : (optional p).Follows (1 + L) where
  writable := .option L
  reads n := by
    apply (hp.reads n).optional.imp
    rintro ts _ (⟨a, hts, rfl⟩ | ⟨rfl, rfl⟩)
    · exact .inr hts
    · exact .inl rfl
  viable s c f hc hf := (hp.viable hc (optional_eq_failed.1 hf).1).mono le_add_self

theorem many (hp : p.Follows L) : (many p).Follows L∗ where
  writable := .kstar L
  reads n := ((hp.reads n).many hp.advances).imp fun _ _ h => h.mem_kstar
  viable s c f hc hf := by
    obtain ⟨as, d, hchain, hf, -⟩ := Chain.of_many_failed hp.advances hc hf
    obtain ⟨-, ts, hl, hts⟩ := Chain.lexed (hp.reads _) hchain hc rfl
    exact ((hp.viable (hl.bounds hc).2 hf).after hl hc hts.mem_kstar).mono kstar_mul_le_kstar

theorem sepBy (hp : p.Follows L) (hL : [] ∉ L) :
    (sepBy p Grammar.comma).Follows (1 + L * (Phrases.mark "," * L)∗) := by
  have hcomma := (literal (m := ",") (by decide)).spaced (nil_notMem_token _)
  have hrest := (hcomma.seqRight (hp.spaced hL)).many
  refine ⟨.option _, fun n s c d as hc hn hok => ?_, fun s c f hc hf => ?_⟩
  · obtain ⟨-, rfl, rfl⟩ | ⟨e, a, rest, ha, hm, rfl⟩ := sepBy_eq_ok.1 hok
    · exact ⟨rfl, [], .inl ⟨rfl, rfl⟩, .inl rfl⟩
    · rw [comma_seqRight] at hm
      obtain ⟨he, us, hl, hus⟩ := hp.reads n hc hn ha
      obtain ⟨hd, vs, hl', hvs⟩ :=
        hrest.reads n (hl.bounds hc).2 ((Cursor.room_congr he).trans hn) hm
      exact ⟨hd.trans he, us ++ vs, hl.append hl', .inr (Language.append_mem_mul hus hvs)⟩
  · obtain ⟨hf, -⟩ | ⟨d, a, ha, hm⟩ := sepBy_eq_failed.1 hf
    · exact ((hp.viable hc hf).append (.kstar _)).mono le_add_self
    · rw [comma_seqRight] at hm
      obtain ⟨-, ts, hl, hts⟩ := hp.reads _ hc rfl ha
      exact ((hrest.viable (hl.bounds hc).2 hm).after hl hc hts).mono le_add_self

end Choices

theorem closed {p : Parser α} {m : Text} (hp : p.Follows L) (hm : PlainMark m) :
    (between trivia p (Parser.spaced (Parser.literal m))).Follows (L * Phrases.mark m) where
  writable := hp.writable.mul (mark_writable hm.1)
  reads n := by
    apply ((hp.reads n).closed hm).imp
    rintro _ a ⟨us, b, rfl, hus⟩
    exact Language.append_mem_mul hus ⟨b, rfl⟩
  viable s c f hc hf := by
    have hlen := skip_le hc
    apply Viable.after_trivia _ hc
    obtain hf | ⟨d, a, ha, hf⟩ := seqLeft_eq_failed.1 hf
    · exact (hp.viable (c := ⟨_, c.depth⟩) hlen hf).append (mark_writable hm.1)
    · obtain ⟨-, ts, hl, hts⟩ := hp.reads _ (c := ⟨_, c.depth⟩) hlen rfl ha
      have hclose := (literal hm).spaced (nil_notMem_token _)
      exact (hclose.viable (hl.bounds hlen).2 hf).after hl hlen hts

end Follows

end Parser

end BrookSyntax
