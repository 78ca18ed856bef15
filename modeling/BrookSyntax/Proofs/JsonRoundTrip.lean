import BrookSyntax.Proofs.JsonText

namespace BrookSyntax

namespace Json

open CodeUnit

variable {t rest blanks : Text} {u : CodeUnit} {n level : Nat} {layout : Layout}

theorem skipBlanks_append (h : ∀ u ∈ blanks, isBlank u) :
    skipBlanks (blanks ++ t) = skipBlanks t :=
  List.dropWhile_append_of_pos h

theorem skipBlanks_cons (h : isBlank u = false) : skipBlanks (u :: t) = u :: t :=
  List.dropWhile_cons_of_neg (by rw [h]; decide)

theorem readValue_blanks (h : ∀ u ∈ blanks, isBlank u) :
    readValue n (blanks ++ t) = readValue n t := by
  cases n with
  | zero => rfl
  | succ n => rw [readValue, readValue, skipBlanks_append h]

theorem readItems_blanks (h : ∀ u ∈ blanks, isBlank u) :
    readItems n (blanks ++ t) = readItems n t := by
  cases n with
  | zero => rfl
  | succ n => rw [readItems, readItems, readValue_blanks h]

theorem readMembers_blanks (h : ∀ u ∈ blanks, isBlank u) :
    readMembers n (blanks ++ t) = readMembers n t := by
  cases n with
  | zero => rfl
  | succ n => rw [readMembers, readMembers, skipBlanks_append h]

theorem isBlank_iff : isBlank u = true ↔ u = 32 ∨ u = 9 ∨ u = 10 ∨ u = 13 := by
  simp only [isBlank, Bool.or_eq_true, beq_iff_eq, or_assoc]

theorem endsNumber_cons (h : u.isDigit = false ∧ u ≠ of '.' ∧ u ≠ of 'e' ∧ u ≠ of 'E') :
    EndsNumber (u :: t) := by
  intro v hv
  cases hv
  exact h

theorem endsNumber_blanks (h : ∀ u ∈ blanks, isBlank u) (ht : EndsNumber t) :
    EndsNumber (blanks ++ t) := by
  cases blanks with
  | nil => exact ht
  | cons u more =>
    apply endsNumber_cons
    obtain rfl | rfl | rfl | rfl := isBlank_iff.1 (h u List.mem_cons_self) <;> decide

/-- The text starts with neither a blank nor a closing bracket. -/
def StartsValue (t : Text) : Prop := ∃ u more, t = u :: more ∧ isBlank u = false ∧ u ≠ of ']'

theorem not_blank_of_number (h : u.isDigit ∨ u = of '-') : isBlank u = false := by
  rw [Bool.eq_false_iff]
  intro hblank
  obtain rfl | rfl | rfl | rfl := isBlank_iff.1 hblank <;> exact absurd h (by decide)

theorem ne_of_number {v : CodeUnit} (h : u.isDigit ∨ u = of '-')
    (hv : ¬ (v.isDigit ∨ v = of '-')) : u ≠ v := by
  rintro rfl
  exact hv h

theorem startsValue_writeAt (v : Json) (hv : v.Proper) :
    StartsValue (v.writeAt layout level rest) := by
  cases v with
  | null => exact ⟨_, _, rfl, by decide, by decide⟩
  | bool value => cases value <;> exact ⟨_, _, rfl, by decide, by decide⟩
  | number x =>
    obtain ⟨u, more, hx, hu⟩ := Binary64.text_first hv.1
    refine ⟨u, more ++ rest, ?_, not_blank_of_number hu, ne_of_number hu (by decide)⟩
    rw [writeAt, writeNumber, if_pos hv.1, hx, List.cons_append]
  | text t => exact ⟨_, _, rfl, by decide, by decide⟩
  | array items => cases items <;> exact ⟨_, _, rfl, by decide, by decide⟩
  | object members =>
    cases members with
    | nil => exact ⟨_, _, rfl, by decide, by decide⟩
    | cons member rest => exact ⟨_, _, rfl, by decide, by decide⟩

mutual

theorem suffix_writeAt (v : Json) (layout : Layout) (level : Nat) (rest : Text) :
    rest <:+ v.writeAt layout level rest := by
  cases v with
  | null => exact List.suffix_append _ _
  | bool value => exact List.suffix_append _ _
  | number x => exact List.suffix_append _ _
  | text t => exact List.suffix_append _ _
  | array items =>
    cases items with
    | nil => exact List.suffix_append _ _
    | cons item items =>
      rw [writeAt]
      apply List.suffix_append_of_suffix
      apply List.suffix_append_of_suffix
      apply List.IsSuffix.trans _ (suffix_writeAt item _ _ _)
      apply List.IsSuffix.trans _ (suffix_writeItems items _ _ _)
      apply List.suffix_append_of_suffix
      exact List.suffix_append _ _
  | object members =>
    cases members with
    | nil => exact List.suffix_append _ _
    | cons member members =>
      obtain ⟨key, value⟩ := member
      rw [writeAt]
      apply List.suffix_append_of_suffix
      apply List.suffix_append_of_suffix
      apply List.suffix_append_of_suffix
      apply List.suffix_append_of_suffix
      apply List.IsSuffix.trans _ (suffix_writeAt value _ _ _)
      apply List.IsSuffix.trans _ (suffix_writeMembers members _ _ _)
      apply List.suffix_append_of_suffix
      exact List.suffix_append _ _

theorem suffix_writeItems (items : List Json) (layout : Layout) (level : Nat) (rest : Text) :
    rest <:+ writeItems layout level items rest := by
  cases items with
  | nil => exact List.suffix_rfl
  | cons item items =>
    rw [writeItems]
    apply List.suffix_append_of_suffix
    apply List.suffix_append_of_suffix
    exact (suffix_writeItems items _ _ _).trans (suffix_writeAt item _ _ _)

theorem suffix_writeMembers (members : List (Text × Json)) (layout : Layout) (level : Nat)
    (rest : Text) : rest <:+ writeMembers layout level members rest := by
  cases members with
  | nil => exact List.suffix_rfl
  | cons member members =>
    obtain ⟨key, value⟩ := member
    rw [writeMembers]
    apply List.suffix_append_of_suffix
    apply List.suffix_append_of_suffix
    apply List.suffix_append_of_suffix
    apply List.suffix_append_of_suffix
    exact (suffix_writeMembers members _ _ _).trans (suffix_writeAt value _ _ _)

end

theorem readValue_quote (n : Nat) (t : Text) :
    readValue (n + 1) (quote :: t) = (readString t).map fun r => (.text r.1, r.2) := rfl

theorem readValue_number (h : u.isDigit ∨ u = of '-') (n : Nat) (t : Text) :
    readValue (n + 1) (u :: t) = (readNumber (u :: t)).map fun r => (.number r.1, r.2) := by
  rw [readValue, skipBlanks_cons (not_blank_of_number h)]
  simp only [if_neg (ne_of_number h (v := of '\x7b') (by decide)),
    if_neg (ne_of_number h (v := of '[') (by decide)),
    if_neg (ne_of_number h (v := quote) (by decide)),
    if_neg (ne_of_number h (v := of 't') (by decide)),
    if_neg (ne_of_number h (v := of 'f') (by decide)),
    if_neg (ne_of_number h (v := of 'n') (by decide))]

theorem readValue_bracket (hblanks : ∀ u ∈ blanks, isBlank u) (ht : StartsValue t) (n : Nat) :
    readValue (n + 1) (of '[' :: (blanks ++ t)) =
      (readItems n t).map fun r => (.array r.1, r.2) := by
  obtain ⟨u, more, rfl, hblank, hne⟩ := ht
  have hexpect : expect? (of ']') (skipBlanks (blanks ++ u :: more)) = none := by
    rw [skipBlanks_append hblanks, skipBlanks_cons hblank, expect?, if_neg hne]
  have hbracket : skipBlanks (of '[' :: (blanks ++ u :: more)) = of '[' :: (blanks ++ u :: more) :=
    skipBlanks_cons rfl
  have hother : of '[' ≠ of '\x7b' := by decide
  simp only [readValue, hbracket, if_neg hother, if_true, hexpect, readItems_blanks hblanks]

theorem readValue_brace (hblanks : ∀ u ∈ blanks, isBlank u) (n : Nat) :
    readValue (n + 1) (of '\x7b' :: (blanks ++ quote :: t)) =
      (readMembers n (quote :: t)).map fun r => (.object (setAll [] r.1), r.2) := by
  have hexpect : expect? (of '\x7d') (skipBlanks (blanks ++ quote :: t)) = none := by
    rw [skipBlanks_append hblanks, skipBlanks_cons rfl, expect?, if_neg (by decide)]
  have hbrace : skipBlanks (of '\x7b' :: (blanks ++ quote :: t)) =
      of '\x7b' :: (blanks ++ quote :: t) := skipBlanks_cons rfl
  simp only [readValue, hbrace, if_true, hexpect, readMembers_blanks hblanks]

theorem skipBlanks_stop (hblanks : ∀ u ∈ blanks, isBlank u) (h : isBlank u = false) :
    skipBlanks (blanks ++ u :: t) = u :: t := by
  rw [skipBlanks_append hblanks, skipBlanks_cons h]

theorem readItems_last {item : Json} {s : Text} (hblanks : ∀ u ∈ blanks, isBlank u)
    (hitem : readValue n s = some (item, blanks ++ of ']' :: rest)) :
    readItems (n + 1) s = some ([item], rest) := by
  have hstop : skipBlanks (blanks ++ of ']' :: rest) = of ']' :: rest :=
    skipBlanks_stop hblanks rfl
  simp only [readItems, hitem, Option.bind_some, hstop, if_true]

theorem readItems_more {item : Json} {items : List Json} {s : Text}
    (hblanks : ∀ u ∈ blanks, isBlank u)
    (hitem : readValue n s = some (item, of ',' :: (blanks ++ t)))
    (hitems : readItems n t = some (items, rest)) :
    readItems (n + 1) s = some (item :: items, rest) := by
  have hne : of ',' ≠ of ']' := by decide
  have hstop : skipBlanks (of ',' :: (blanks ++ t)) = of ',' :: (blanks ++ t) :=
    skipBlanks_cons rfl
  simp only [readItems, hitem, Option.bind_some, hstop, if_neg hne, if_true,
    readItems_blanks hblanks, hitems, Option.map_some]

section Members

variable {key s : Text} {value : Json} {colon : Text}

theorem readMembers_key {u : CodeUnit} (hcolon : ∀ u ∈ colon, isBlank u)
    (hvalue : readValue n s = some (value, t)) (hstop : skipBlanks t = u :: rest) :
    readMembers (n + 1) (writeText key ++ (of ':' :: colon ++ s)) =
      if u = of '\x7d' then some ([(key, value)], rest)
      else if u = of ',' then (readMembers n rest).map fun r => ((key, value) :: r.1, r.2)
      else none := by
  have hquote : skipBlanks (quote :: (escape key ++ quote :: (of ':' :: colon ++ s))) =
      quote :: (escape key ++ quote :: (of ':' :: colon ++ s)) := skipBlanks_cons rfl
  have hafter : skipBlanks (of ':' :: colon ++ s) = of ':' :: (colon ++ s) := skipBlanks_cons rfl
  rw [writeText_append]
  simp only [readMembers, hquote, expect?, if_true, Option.bind_some, readString_escape, hafter,
    readValue_blanks hcolon, hvalue, hstop]

theorem readMembers_last (hcolon : ∀ u ∈ colon, isBlank u) (hblanks : ∀ u ∈ blanks, isBlank u)
    (hvalue : readValue n s = some (value, blanks ++ of '\x7d' :: rest)) :
    readMembers (n + 1) (writeText key ++ (of ':' :: colon ++ s)) =
      some ([(key, value)], rest) := by
  have hstop : skipBlanks (blanks ++ of '\x7d' :: rest) = of '\x7d' :: rest :=
    skipBlanks_stop hblanks rfl
  rw [readMembers_key hcolon hvalue hstop, if_pos rfl]

theorem readMembers_more {members : List (Text × Json)} (hcolon : ∀ u ∈ colon, isBlank u)
    (hblanks : ∀ u ∈ blanks, isBlank u)
    (hvalue : readValue n s = some (value, of ',' :: (blanks ++ t)))
    (hmembers : readMembers n t = some (members, rest)) :
    readMembers (n + 1) (writeText key ++ (of ':' :: colon ++ s)) =
      some ((key, value) :: members, rest) := by
  have hne : of ',' ≠ of '\x7d' := by decide
  have hstop : skipBlanks (of ',' :: (blanks ++ t)) = of ',' :: (blanks ++ t) :=
    skipBlanks_cons rfl
  rw [readMembers_key hcolon hvalue hstop, if_neg hne, if_pos rfl, readMembers_blanks hblanks,
    hmembers, Option.map_some]

end Members

theorem set_of_notMem {α : Type} {key : Text} {members : List (Text × α)}
    (h : key ∉ members.map Prod.fst) (value : α) :
    set key value members = members ++ [(key, value)] := by
  induction members with
  | nil => rfl
  | cons member rest ih =>
    rw [List.map_cons, List.mem_cons, not_or] at h
    rw [set, if_neg (Ne.symm h.1), ih h.2, List.cons_append]

theorem setAll_of_nodup {α : Type} {members fields : List (Text × α)}
    (h : ((members ++ fields).map Prod.fst).Nodup) : setAll members fields = members ++ fields := by
  induction fields generalizing members with
  | nil => rw [List.append_nil]; rfl
  | cons field rest ih =>
    have hnew : field.1 ∉ members.map Prod.fst := by
      intro hm
      rw [List.map_append, List.nodup_append] at h
      exact h.2.2 _ hm _ (List.mem_map_of_mem List.mem_cons_self) rfl
    have hsplit : members ++ field :: rest = members ++ [field] ++ rest := by
      rw [List.append_assoc, List.singleton_append]
    rw [hsplit] at h ⊢
    rw [← ih h, ← set_of_notMem hnew field.2]
    rfl

theorem endsNumber_writeItems (hl : layout.IsBlank) (items : List Json) (level : Nat)
    (rest : Text) :
    EndsNumber (writeItems layout (level + 1) items (layout.gap level ++ ("]" ++ rest))) := by
  cases items with
  | nil => exact endsNumber_blanks (hl.gap level) (endsNumber_cons (by decide))
  | cons item items => exact endsNumber_cons (by decide)

theorem endsNumber_writeMembers (hl : layout.IsBlank) (members : List (Text × Json))
    (level : Nat) (rest : Text) :
    EndsNumber
      (writeMembers layout (level + 1) members (layout.gap level ++ ("\x7d" ++ rest))) := by
  cases members with
  | nil => exact endsNumber_blanks (hl.gap level) (endsNumber_cons (by decide))
  | cons member members => exact endsNumber_cons (by decide)

mutual

/-- A value is read back from its text. Twice the length of the text is enough of steps. -/
theorem readValue_writeAt (hl : layout.IsBlank) (v : Json) (hv : v.Proper) (n level : Nat)
    (rest : Text) (hrest : EndsNumber rest)
    (hn : 2 * (v.writeAt layout level rest).length ≤ n) :
    readValue n (v.writeAt layout level rest) = some (v, rest) := by
  have hpos : 0 < (v.writeAt layout level rest).length := by
    obtain ⟨u, more, hstart, -⟩ := startsValue_writeAt v hv
    rw [hstart]
    exact Nat.succ_pos _
  obtain ⟨n, rfl⟩ := Nat.exists_eq_add_of_le' (show 1 ≤ n by omega)
  cases v with
  | null => rfl
  | bool value => cases value <;> rfl
  | number x =>
    obtain ⟨hfinite, hzero⟩ := hv
    obtain ⟨u, more, hx, hu⟩ := Binary64.text_first hfinite
    have hread := Binary64.readNumber_text hfinite hzero hrest
    rw [hx, List.cons_append] at hread
    rw [writeAt, writeNumber, if_pos hfinite, hx, List.cons_append, readValue_number hu, hread]
    rfl
  | text t =>
    rw [writeAt, writeText_append, readValue_quote, readString_escape]
    rfl
  | array items =>
    cases hitems : items with
    | nil => rfl
    | cons item more =>
      rw [hitems] at hv hn
      have hbracket : (Text.ofString "[").length = 1 := rfl
      rw [writeAt, List.length_append, List.length_append, hbracket] at hn
      have hread := readItems_write hl items (hitems ▸ hv) hitems n level rest (by omega)
      rw [writeAt]
      exact (readValue_bracket (hl.gap _) (startsValue_writeAt item hv.1) n).trans
        (by rw [hread, Option.map_some, hitems])
  | object members =>
    cases hmembers : members with
    | nil => rfl
    | cons member more =>
      obtain ⟨key, value⟩ := member
      obtain ⟨hnodup, hproper⟩ := hv
      rw [hmembers] at hn
      have hbrace : (Text.ofString "\x7b").length = 1 := rfl
      rw [writeAt, List.length_append, List.length_append, hbrace] at hn
      have hread := readMembers_write hl members hproper hmembers n level rest (by omega)
      rw [writeAt]
      rw [writeText_append] at hread ⊢
      exact (readValue_brace (hl.gap _) n).trans
        (by rw [hread, Option.map_some, setAll_of_nodup hnodup, List.nil_append, hmembers])

theorem readItems_write (hl : layout.IsBlank) (items : List Json) (hitems : Proper.AllProper items)
    {item : Json} {more : List Json} (heq : items = item :: more) (n level : Nat) (rest : Text)
    (hn : 2 * (item.writeAt layout (level + 1) (writeItems layout (level + 1) more
      (layout.gap level ++ ("]" ++ rest)))).length + 1 ≤ n) :
    readItems n (item.writeAt layout (level + 1) (writeItems layout (level + 1) more
      (layout.gap level ++ ("]" ++ rest)))) = some (items, rest) := by
  cases items with
  | nil => cases heq
  | cons item' more' =>
    obtain ⟨rfl, rfl⟩ := List.cons.inj heq
    obtain ⟨hitem, hmore⟩ := hitems
    obtain ⟨n, rfl⟩ := Nat.exists_eq_add_of_le' (show 1 ≤ n by omega)
    have hread := readValue_writeAt hl item' hitem n (level + 1) _
      (endsNumber_writeItems hl more' level rest) (by omega)
    cases hm : more' with
    | nil =>
      rw [hm] at hread
      exact readItems_last (hl.gap level) hread
    | cons item₂ more₂ =>
      have hlength := (suffix_writeAt item' layout (level + 1) (writeItems layout (level + 1) more'
        (layout.gap level ++ ("]" ++ rest)))).length_le
      rw [hm] at hlength hn hread
      have hcomma : (Text.ofString ",").length = 1 := rfl
      rw [writeItems] at hlength hn
      rw [List.length_append, List.length_append, hcomma] at hlength
      have hrest := readItems_write hl more' hmore hm n level rest (by omega)
      rw [hm] at hrest
      exact readItems_more (hl.gap (level + 1)) hread hrest

theorem readMembers_write (hl : layout.IsBlank) (members : List (Text × Json))
    (hmembers : Proper.MembersProper members) {key : Text} {value : Json}
    {more : List (Text × Json)} (heq : members = (key, value) :: more) (n level : Nat)
    (rest : Text)
    (hn : 2 * (writeText key ++ (layout.colon ++ value.writeAt layout (level + 1)
      (writeMembers layout (level + 1) more (layout.gap level ++ ("\x7d" ++ rest))))).length + 1 ≤
        n) :
    readMembers n (writeText key ++ (layout.colon ++ value.writeAt layout (level + 1)
      (writeMembers layout (level + 1) more (layout.gap level ++ ("\x7d" ++ rest))))) =
      some (members, rest) := by
  cases members with
  | nil => cases heq
  | cons member more' =>
    obtain ⟨rfl, rfl⟩ := List.cons.inj heq
    obtain ⟨hvalue, hmore⟩ := hmembers
    obtain ⟨n, rfl⟩ := Nat.exists_eq_add_of_le' (show 1 ≤ n by omega)
    obtain ⟨colon, hcolon, hblank⟩ := hl.colon
    rw [List.length_append, List.length_append] at hn
    have hread := readValue_writeAt hl value hvalue n (level + 1) _
      (endsNumber_writeMembers hl more' level rest) (by omega)
    rw [hcolon]
    cases hm : more' with
    | nil =>
      rw [hm] at hread
      exact readMembers_last hblank (hl.gap level) hread
    | cons member₂ more₂ =>
      obtain ⟨key₂, value₂⟩ := member₂
      have hlength := (suffix_writeAt value layout (level + 1)
        (writeMembers layout (level + 1) more' (layout.gap level ++ ("\x7d" ++ rest)))).length_le
      rw [hm] at hlength hn hread
      have hcomma : (Text.ofString ",").length = 1 := rfl
      rw [writeMembers] at hlength hn
      rw [List.length_append, List.length_append, hcomma] at hlength
      have hrest := readMembers_write hl more' hmore hm n level rest (by omega)
      rw [hm] at hrest
      exact readMembers_more hblank (hl.gap (level + 1)) hread hrest

end

theorem read?_write (hl : layout.IsBlank) (v : Json) (hv : v.Proper) :
    read? (v.write layout) = some v := by
  have hread := readValue_writeAt hl v hv (2 * (v.write layout).length + 1) 0 [] nofun
    (Nat.le_succ _)
  simp only [read?, write] at hread ⊢
  rw [hread]
  rfl

theorem Layout.compact_isBlank : Layout.compact.IsBlank := ⟨fun _ => nofun, [], rfl, nofun⟩

theorem Layout.indented_isBlank : Layout.indented.IsBlank where
  gap level u hu := by
    rcases List.mem_cons.1 hu with rfl | hu
    · rfl
    · rw [List.eq_of_mem_replicate hu]
      rfl
  colon := ⟨[of ' '], rfl, List.forall_mem_singleton.2 rfl⟩

end Json

end BrookSyntax
