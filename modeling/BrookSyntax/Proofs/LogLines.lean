import BrookSyntax.Proofs.Alike
import BrookSyntax.Proofs.DocumentRoundTrip
import BrookSyntax.Proofs.Violations

namespace BrookSyntax

open CodeUnit

/-- No unit of the text is a control unit, a newline for instance. -/
def Text.NoControl (t : Text) : Prop := ∀ u ∈ t, 32 ≤ u

namespace Text

variable {t : Text} {u : CodeUnit}

instance (t : Text) : Decidable t.NoControl :=
  decidable_of_iff (t.all (32 ≤ ·) = true) (by simp [NoControl])

theorem noControl_nil : Text.NoControl [] := List.forall_mem_nil _

theorem NoControl.append {a b : Text} (ha : a.NoControl) (hb : b.NoControl) :
    Text.NoControl (a ++ b) :=
  List.forall_mem_append.2 ⟨ha, hb⟩

theorem noControl_cons (hu : 32 ≤ u) (h : t.NoControl) : Text.NoControl (u :: t) :=
  List.forall_mem_cons.2 ⟨hu, h⟩

theorem noControl_digits (h : ∀ u ∈ t, u.isDigit = true) : t.NoControl := by
  intro u hu
  obtain ⟨hle, -⟩ := (isDigit_iff u).1 (h u hu)
  have hbound : (32 : CodeUnit).toNat ≤ 48 := by decide
  exact UInt16.le_iff_toNat_le.2 (Nat.le_trans hbound hle)

theorem noControl_fraction (h : ∀ u ∈ t, u.isDigit = true) : (fractionText t).NoControl := by
  rw [fractionText]
  split
  · exact noControl_nil
  · exact noControl_cons (by decide) (noControl_digits h)

theorem noControl_exponent (e : Option Int) : (exponentPart e).NoControl := by
  cases e with
  | none => exact noControl_nil
  | some e =>
    have hdigits := noControl_digits (ofNat_isDigit e.natAbs)
    apply noControl_cons (by decide)
    rw [Binary64.exponentText]
    split
    · exact noControl_cons (by decide) hdigits
    · exact noControl_cons (by decide) hdigits

end Text

open Text

theorem Binary64.noControl_text {x : Binary64} (hfinite : x.isFinite) : x.text.NoControl := by
  cases h : x.isZero with
  | true =>
    rw [text_of_zero h]
    decide
  | false =>
    obtain ⟨hshown, -⟩ := layout_spec x.shortest (shortest_digits_pos h)
    obtain ⟨whole, fraction, e, -, htext, hwhole, hfraction, -⟩ :=
      digitsText_parts hshown (layout x.shortest).2
    have hparts : Text.NoControl (whole ++ (fractionText fraction ++ exponentPart e)) :=
      (noControl_digits hwhole.digits).append
        ((noControl_fraction hfraction).append (noControl_exponent e))
    rw [text_of_nonzero h hfinite, htext]
    split
    · exact noControl_cons (by decide) hparts
    · exact hparts

namespace Json

section NoControl

variable {layout : Layout} {rest : Text}

theorem le_hexDigit {n : Nat} (h : n < 16) : 32 ≤ hexDigit n := by
  revert n
  decide

theorem noControl_hexEscape (u : CodeUnit) : (hexEscape u).NoControl := by
  have hdigit (n : Nat) : 32 ≤ hexDigit (n % 16) := le_hexDigit (Nat.mod_lt n (by decide))
  have hopen : (Text.ofString "\\u").NoControl := by decide
  refine hopen.append ?_
  exact noControl_cons (hdigit _) (noControl_cons (hdigit _)
    (noControl_cons (hdigit _) (noControl_cons (hdigit _) noControl_nil)))

theorem noControl_escapeUnit (u : CodeUnit) : (escapeUnit u).NoControl := by
  rw [escapeUnit]
  repeat' split
  any_goals decide
  · exact noControl_hexEscape u
  · next h =>
    rw [Bool.or_eq_true, not_or, decide_eq_true_eq, UInt16.not_lt] at h
    exact noControl_cons h.1 noControl_nil

theorem le_surrogate {u : CodeUnit} (h : u.isSurrogate = true) : 32 ≤ u := by
  rw [isSurrogate, Bool.and_eq_true, decide_eq_true_eq] at h
  exact UInt16.le_trans (by decide) h.1

/-- Control units are escaped; the halves of a surrogate pair are not, but they are none. -/
theorem noControl_escape (t : Text) : (escape t).NoControl := by
  induction t using escape.induct with
  | case1 => exact noControl_nil
  | case2 u => exact noControl_escapeUnit u
  | case3 u v t h ih =>
    obtain ⟨hu, hv⟩ := Bool.and_eq_true_iff.1 h
    rw [escape, if_pos h]
    exact noControl_cons (le_surrogate (isSurrogate_of_high hu))
      (noControl_cons (le_surrogate (isSurrogate_of_low hv)) ih)
  | case4 u v t h ih =>
    rw [escape, if_neg h]
    exact (noControl_escapeUnit u).append ih

theorem noControl_writeText (t : Text) : (writeText t).NoControl :=
  noControl_cons (by decide) ((noControl_escape t).append (by decide))

theorem noControl_writeNumber (x : Binary64) : (writeNumber x).NoControl := by
  rw [writeNumber]
  split
  · next h => exact Binary64.noControl_text h
  · decide

/-- A layout that adds no control unit. -/
structure Layout.IsLine (layout : Layout) : Prop where
  gap : ∀ level, (layout.gap level).NoControl
  colon : layout.colon.NoControl

theorem Layout.compact_isLine : Layout.compact.IsLine :=
  ⟨fun _ => noControl_nil, by decide⟩

mutual

theorem noControl_writeAt (hl : layout.IsLine) (v : Json) (level : Nat) (rest : Text)
    (hrest : rest.NoControl) : (v.writeAt layout level rest).NoControl := by
  cases v with
  | null =>
    rw [writeAt]
    exact NoControl.append (by decide) hrest
  | bool value =>
    rw [writeAt]
    exact NoControl.append (by cases value <;> decide) hrest
  | number x =>
    rw [writeAt]
    exact (noControl_writeNumber x).append hrest
  | text t =>
    rw [writeAt]
    exact (noControl_writeText t).append hrest
  | array items =>
    cases items with
    | nil =>
      rw [writeAt]
      exact NoControl.append (by decide) hrest
    | cons item items =>
      have hclose := (hl.gap level).append (NoControl.append (a := "]") (by decide) hrest)
      have hitems := noControl_writeItems hl items (level + 1) _ hclose
      have hitem := noControl_writeAt hl item (level + 1) _ hitems
      rw [writeAt]
      exact NoControl.append (by decide) ((hl.gap _).append hitem)
  | object members =>
    cases members with
    | nil =>
      rw [writeAt]
      exact NoControl.append (by decide) hrest
    | cons member members =>
      obtain ⟨key, value⟩ := member
      have hclose := (hl.gap level).append (NoControl.append (a := "\x7d") (by decide) hrest)
      have hmembers := noControl_writeMembers hl members (level + 1) _ hclose
      have hvalue := noControl_writeAt hl value (level + 1) _ hmembers
      rw [writeAt]
      exact NoControl.append (by decide)
        ((hl.gap _).append ((noControl_writeText key).append (hl.colon.append hvalue)))

theorem noControl_writeItems (hl : layout.IsLine) (items : List Json) (level : Nat) (rest : Text)
    (hrest : rest.NoControl) : (writeItems layout level items rest).NoControl := by
  cases items with
  | nil => exact hrest
  | cons item items =>
    have hitems := noControl_writeItems hl items level rest hrest
    have hitem := noControl_writeAt hl item level _ hitems
    rw [writeItems]
    exact NoControl.append (by decide) ((hl.gap _).append hitem)

theorem noControl_writeMembers (hl : layout.IsLine) (members : List (Text × Json)) (level : Nat)
    (rest : Text) (hrest : rest.NoControl) :
    (writeMembers layout level members rest).NoControl := by
  cases members with
  | nil => exact hrest
  | cons member members =>
    obtain ⟨key, value⟩ := member
    have hmembers := noControl_writeMembers hl members level rest hrest
    have hvalue := noControl_writeAt hl value level _ hmembers
    rw [writeMembers]
    exact NoControl.append (by decide)
      ((hl.gap _).append ((noControl_writeText key).append (hl.colon.append hvalue)))

end

theorem noControl_write (hl : layout.IsLine) (v : Json) : (v.write layout).NoControl :=
  noControl_writeAt hl v 0 [] noControl_nil

end NoControl

section Records

variable {α β : Type} {members fields others : List (Text × α)} {key : Text}

theorem lookup_map_values (f : α → β) (key : Text) (members : List (Text × α)) :
    (members.map fun member => (member.1, f member.2)).lookup key = (members.lookup key).map f := by
  induction members with
  | nil => rfl
  | cons member rest ih =>
    rw [List.map_cons, lookup_cons, lookup_cons, ih]
    split <;> rfl

/-- Of the fields with one key the last one counts. -/
theorem lookup_setAll (key : Text) (members fields : List (Text × α)) :
    (setAll members fields).lookup key =
      (fields.reverse.lookup key).or (members.lookup key) := by
  induction fields generalizing members with
  | nil => rfl
  | cons field rest ih =>
    rw [List.reverse_cons, List.lookup_append, lookup_cons, List.lookup_nil, Option.or_assoc]
    refine (ih _).trans (congrArg _ ?_)
    rw [lookup_set]
    split <;> rfl

theorem indexed_perm (members : List (Text × α)) :
    ((indexed members).map Prod.snd).Perm
      (members.filter fun member => (index? member.1).isSome) := by
  have hkept : (members.filterMap fun member => (index? member.1).map fun n => (n, member)).map
      Prod.snd = members.filter fun member => (index? member.1).isSome := by
    rw [List.map_filterMap, ← List.filterMap_eq_filter]
    congr 1
    funext member
    cases h : index? member.1 <;> simp [Option.guard, h]
  rw [← hkept]
  exact (List.mergeSort_perm _ _).map _

theorem listed_perm (members : List (Text × α)) : (listed members).Perm members := by
  have hsplit := List.filter_append_perm (fun member => (index? member.1).isSome) members
  simp only [Option.not_isSome] at hsplit
  exact ((indexed_perm members).append_right _).trans hsplit

end Records

/-- A value as it is read back: an infinite number as null, and a zero without its sign. -/
def readBack : Json → Json
  | number x => if x.isFinite then .number (if x.isZero then .zero else x) else .null
  | v => v

theorem writeAt_readBack (v : Json) (layout : Layout) (level : Nat) (rest : Text) :
    v.readBack.writeAt layout level rest = v.writeAt layout level rest := by
  cases v with
  | number x =>
    rw [readBack]
    split
    · next hfinite =>
      split
      · next hzero =>
        rw [writeAt, writeAt, writeNumber, writeNumber, if_pos hfinite,
          Binary64.text_of_zero hzero]
        rfl
      · rfl
    · next hfinite =>
      rw [writeAt, writeAt, writeNumber, if_neg hfinite]
  | _ => rfl

theorem writeMembers_readBack (members : List (Text × Json)) (layout : Layout) (level : Nat)
    (rest : Text) :
    writeMembers layout level (members.map fun member => (member.1, member.2.readBack)) rest =
      writeMembers layout level members rest := by
  induction members with
  | nil => rfl
  | cons member members ih =>
    obtain ⟨key, value⟩ := member
    rw [List.map_cons, writeMembers, writeMembers, ih, writeAt_readBack]

theorem write_readBack (members : List (Text × Json)) (layout : Layout) :
    (object (members.map fun member => (member.1, member.2.readBack))).write layout =
      (object members).write layout := by
  cases members with
  | nil => rfl
  | cons member members =>
    obtain ⟨key, value⟩ := member
    rw [write, write, List.map_cons, writeAt, writeAt, writeMembers_readBack, writeAt_readBack]

theorem IsScalar.proper_readBack {v : Json} (hv : v.IsScalar) : v.readBack.Proper := by
  cases v with
  | number x =>
    rw [readBack]
    split
    · next hfinite =>
      split
      · exact ⟨by decide, fun _ => rfl⟩
      · next hzero => exact ⟨hfinite, fun h => absurd h hzero⟩
    · trivial
  | array items => exact hv.elim
  | object members => exact hv.elim
  | _ => trivial

theorem Proper.readBack_eq {v : Json} (hv : v.Proper) : v.readBack = v := by
  cases v with
  | number x =>
    obtain ⟨hfinite, hsign⟩ := hv
    rw [readBack, if_pos hfinite]
    split
    · next hzero =>
      have hx : x = .zero := Binary64.ext (hsign hzero) (beq_iff_eq.1 hzero)
      rw [hx]
    · rfl
  | _ => rfl

theorem map_readBack {v? : Option Json} (h : ∀ v, v? = some v → v.Proper) :
    v?.map readBack = v? := by
  cases v? with
  | none => rfl
  | some v => rw [Option.map_some, (h v rfl).readBack_eq]

/-- A record of scalars is read back from its line with the last value of each key. -/
theorem read?_record {fields : List (Text × Json)} (h : ∀ field ∈ fields, field.2.IsScalar) :
    ∃ members, read? ((record fields).write .compact) = some (.object members) ∧
      (members.map Prod.fst).Nodup ∧
      ∀ key, members.lookup key = (fields.reverse.lookup key).map readBack := by
  have hperm := listed_perm (setAll [] fields)
  have hnodup : ((setAll [] fields).map Prod.fst).Nodup := nodup_setAll List.nodup_nil
  have hlisted := (hperm.map Prod.fst).nodup_iff.2 hnodup
  have hscalar : ∀ member ∈ listed (setAll [] fields), member.2.IsScalar := fun member hm =>
    forall_mem_setAll [] (List.forall_mem_nil _) h member (hperm.mem_iff.1 hm)
  have hkeys : ((listed (setAll [] fields)).map fun member =>
      (member.1, member.2.readBack)).map Prod.fst = (listed (setAll [] fields)).map Prod.fst := by
    rw [List.map_map]
    rfl
  refine ⟨_, ?_, hkeys ▸ hlisted, fun key => ?_⟩
  · rw [record, ← write_readBack]
    refine read?_write Layout.compact_isBlank _ ⟨hkeys ▸ hlisted, membersProper_iff.2 ?_⟩
    rw [List.forall_mem_map]
    exact fun member hm => (hscalar member hm).proper_readBack
  · rw [lookup_map_values, lookup_perm hperm hlisted, lookup_setAll, List.lookup_nil,
      Option.or_none]

end Json

open Json

namespace Logger

variable {logger : Logger} {now message : Text} {level : Level} {fields : List (Text × Json)}

theorem header_scalar : ∀ field ∈ logger.header now level message,
    field.2.IsScalar ∧ field.2.Proper := by
  simp [header, IsScalar, Proper]

theorem lookup_header_reverse (logger : Logger) (now : Text) (level : Level) (message key : Text) :
    (logger.header now level message).reverse.lookup key =
      (logger.header now level message).lookup key := by
  have hnodup : ((logger.header now level message).map Prod.fst).Nodup := by
    change (["level", "timestamp", "component", "message"] : List Text).Nodup
    decide
  exact lookup_perm (List.reverse_perm _) ((List.map_reverse ▸ List.nodup_reverse.2 hnodup)) key

theorem log_reads (h : ∀ field ∈ fields, field.2.IsScalar) {line : Text}
    (hline : line ∈ logger.log now level message fields) :
    line.NoControl ∧ ∃ members, read? line = some (.object members) ∧
      (members.map Prod.fst).Nodup ∧
      ∀ key, members.lookup key =
        ((fields.reverse.lookup key).or ((logger.header now level message).lookup key)).map
          readBack := by
  rw [log] at hline
  split at hline
  · obtain rfl := List.mem_singleton.1 hline
    obtain ⟨members, hread, hnodup, hlookup⟩ :=
      read?_record (List.forall_mem_append.2 ⟨fun field hf => (header_scalar field hf).1, h⟩)
    refine ⟨noControl_write Layout.compact_isLine _, members, hread, hnodup, fun key => ?_⟩
    rw [hlookup, List.reverse_append, List.lookup_append, lookup_header_reverse]
  · cases hline

end Logger

namespace Summary

def file : Summary → Text
  | completed file _ _ | failed file _ _ _ => file

def trail? : Summary → Option Text
  | completed _ _ _ => none
  | failed _ _ _ trail => trail

theorem fields_isScalar (summary : Summary) : ∀ field ∈ summary.fields, field.2.IsScalar := by
  rcases summary with _ | ⟨file, code, duration, _ | trail⟩ <;> simp [fields, IsScalar]

theorem lookup_file (summary : Summary) :
    summary.fields.reverse.lookup ("file" : Text) = some (.text summary.file) := by
  rcases summary with _ | ⟨file, code, duration, _ | trail⟩ <;> rfl

theorem lookup_trail (summary : Summary) :
    summary.fields.reverse.lookup ("trail" : Text) = summary.trail?.map .text := by
  rcases summary with _ | ⟨file, code, duration, _ | trail⟩ <;> rfl

end Summary

/-- The line is a record about a file, with a trail if there is one. -/
def Text.IsAbout (line file : Text) (trail : Option Text) : Prop :=
  line.NoControl ∧ ∃ members, read? line = some (.object members) ∧
    (members.map Prod.fst).Nodup ∧ members.lookup ("file" : Text) = some (.text file) ∧
    members.lookup ("trail" : Text) = trail.map .text

variable {config : Config} {clock : Clock} {file line : Text} {s : Source}

theorem Logger.summary_isAbout {logger : Logger} {now : Text} {summary : Summary}
    (h : line ∈ logger.summary now summary) : line.IsAbout summary.file summary.trail? := by
  obtain ⟨hline, members, hread, hnodup, hlookup⟩ := log_reads summary.fields_isScalar h
  refine ⟨hline, members, hread, hnodup, ?_, ?_⟩
  · rw [hlookup, summary.lookup_file]
    rfl
  · rw [hlookup, summary.lookup_trail]
    cases summary.trail? <;> rfl

theorem Config.logTiming_isAbout {now : Text} {duration : Binary64}
    (h : line ∈ config.logTiming now file duration) : line.IsAbout file none := by
  obtain ⟨hline, members, hread, hnodup, hlookup⟩ := Logger.log_reads (by simp [IsScalar]) h
  exact ⟨hline, members, hread, hnodup, hlookup _, hlookup _⟩

/-- The lines about a parse tell its file; a trail is told of a failure only, if parsing is traced
and the summary is logged at all. -/
theorem Result.logs_isAbout {result : Result Program}
    (h : line ∈ result.logs s file config clock) :
    line.IsAbout file none ∨ ∃ f, result = .failed f ∧ config.traceParser ∧
      (config.logger "parser").enables .debug ∧ line.IsAbout file (some f.render) := by
  rcases List.mem_append.1 h with h | h
  · split at h
    · exact .inl (Config.logTiming_isAbout h)
    · cases h
  · have habout := Logger.summary_isAbout h
    cases result with
    | ok d program => exact .inl habout
    | failed f =>
      by_cases htrail : (config.traceParser && (config.logger "parser").enables .debug) = true
      · simp only [htrail, if_true] at habout
        obtain ⟨htrace, hdebug⟩ := Bool.and_eq_true_iff.1 htrail
        exact .inr ⟨f, rfl, htrace, hdebug, habout⟩
      · simp only [if_neg htrail] at habout
        exact .inl habout

theorem Source.logs_of_outcome {offset : Double} {file : Option Text} {o : Outcome}
    (h : s.outcome offset file config clock = .ok o) :
    ∃ result, s.parse offset = .ok result ∧
      o.logs = result.logs s (file.getD "<input>") config clock := by
  rw [outcome] at h
  cases hparse : s.parse offset with
  | error e =>
    rw [hparse] at h
    cases h
  | ok result =>
    rw [hparse] at h
    cases result <;> cases h <;> exact ⟨_, rfl, rfl⟩

/-- What is logged stands on one line and is lossless: the line is read as a record in which the
fields replace the members that every entry has, and the last field of each key counts. Every line
about a parse, whatever is configured and however long it took, tells the file, and a trail is the
text of the failure. -/
theorem log_lines_lossless :
    (∀ (logger : Logger) (now : Text) (level : Level) (message : Text)
        (fields : List (Text × Json)), logger.enables level →
      (∀ field ∈ fields, field.2.IsScalar ∧ field.2.Proper) →
      ∃ line members, logger.log now level message fields = [line] ∧ line.NoControl ∧
        read? line = some (.object members) ∧ (members.map Prod.fst).Nodup ∧
        ∀ key, members.lookup key =
          (fields.reverse.lookup key).or ((logger.header now level message).lookup key)) ∧
    ∀ (s : Source) (offset : Double) (file : Option Text) (config : Config) (clock : Clock)
        (o : Outcome), s.outcome offset file config clock = .ok o → ∀ line ∈ o.logs,
      line.NoControl ∧ ∃ members, read? line = some (.object members) ∧
        (members.map Prod.fst).Nodup ∧
        members.lookup ("file" : Text) = some (.text (file.getD "<input>")) ∧
        (members.lookup ("trail" : Text) = none ∨ ∃ f, s.parse offset = .ok (.failed f) ∧
          config.traceParser ∧ (config.logger "parser").enables .debug ∧
          members.lookup ("trail" : Text) = some (.text f.render)) := by
  constructor
  · intro logger now level message fields hlevel hfields
    have hlog : logger.log now level message fields =
        [(logger.entry now level message fields).write .compact] := if_pos hlevel
    obtain ⟨hline, members, hread, hnodup, hlookup⟩ :=
      Logger.log_reads (fun field hf => (hfields field hf).1) (hlog ▸ List.mem_singleton_self _)
    refine ⟨_, members, hlog, hline, hread, hnodup, fun key => ?_⟩
    rw [hlookup, map_readBack]
    intro v hv
    rcases Option.or_eq_some_iff.1 hv with hv | ⟨-, hv⟩
    · exact (hfields _ (List.mem_reverse.1 (mem_of_lookup hv))).2
    · exact (Logger.header_scalar _ (mem_of_lookup hv)).2
  · intro s offset file config clock o ho line hline
    obtain ⟨result, hparse, hlogs⟩ := Source.logs_of_outcome ho
    rw [hlogs] at hline
    obtain ⟨hcontrol, members, hread, hnodup, hfile, htrail⟩ |
      ⟨f, rfl, htrace, hdebug, hcontrol, members, hread, hnodup, hfile, htrail⟩ :=
      Result.logs_isAbout hline
    · exact ⟨hcontrol, members, hread, hnodup, hfile, .inl htrail⟩
    · exact ⟨hcontrol, members, hread, hnodup, hfile, .inr ⟨f, hparse, htrace, hdebug, htrail⟩⟩

/-- A component with a newline, and a message that is given once more, with a lone surrogate, by a
field; the two lines about a parse of a file whose name has a newline. -/
theorem log_lines_lossless_escapes :
    (∃ line members,
      Logger.log ⟨"a\nb", Level.info.number⟩ "now" .error "c"
        [("message", .text [0xD800, newline]), ("n", .number (.ofNat 1))] = [line] ∧
      newline ∉ line ∧ read? line = some (.object members) ∧
      members.lookup ("component" : Text) = some (.text "a\nb") ∧
      members.lookup ("message" : Text) = some (.text [0xD800, newline])) ∧
    ∃ o, (Source.ofText "break").outcome .zero (some "x\ny") ⟨.debug, true⟩ ⟨"", .zero⟩ = .ok o ∧
      o.logs.length = 2 ∧ ∀ line ∈ o.logs, newline ∉ line ∧ ∃ members,
        read? line = some (.object members) ∧
        members.lookup ("file" : Text) = some (.text "x\ny") := by
  have hnewline {t : Text} (h : t.NoControl) : newline ∉ t := fun hm => absurd (h _ hm) (by decide)
  constructor
  · obtain ⟨line, members, hlog, hline, hread, -, hlookup⟩ :=
      log_lines_lossless.1 ⟨"a\nb", Level.info.number⟩ "now" .error "c"
        [("message", .text [0xD800, newline]), ("n", .number (.ofNat 1))] (by decide +kernel)
        (List.forall_mem_cons.2 ⟨⟨trivial, trivial⟩, List.forall_mem_singleton.2
          ⟨trivial, by decide +kernel, fun _ => rfl⟩⟩)
    exact ⟨line, members, hlog, hnewline hline, hread, hlookup _, hlookup _⟩
  · have hcount : (((Source.ofText "break").outcome .zero (some "x\ny") ⟨.debug, true⟩
        ⟨"", .zero⟩).map fun o => o.logs.length).toOption = some 2 := by decide +kernel
    cases houtcome : (Source.ofText "break").outcome .zero (some "x\ny") ⟨.debug, true⟩
        ⟨"", .zero⟩ with
    | error e =>
      rw [houtcome] at hcount
      cases hcount
    | ok o =>
      rw [houtcome] at hcount
      refine ⟨o, rfl, Option.some.inj hcount, fun line hline => ?_⟩
      obtain ⟨hcontrol, members, hread, -, hfile, -⟩ :=
        log_lines_lossless.2 _ _ _ _ _ o houtcome line hline
      exact ⟨hnewline hcontrol, members, hread, hfile⟩

end BrookSyntax
