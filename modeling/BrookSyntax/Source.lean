import BrookSyntax.Binary64
import BrookSyntax.LineIndex

namespace BrookSyntax

/-- A text to be parsed, with its units and the starts of its lines by number. -/
structure Source where
  text : Text
  units : Array CodeUnit := text.toArray
  starts : Array Nat := text.lineStarts.toArray
  units_eq : units = text.toArray := by rfl
  starts_eq : starts = text.lineStarts.toArray := by rfl

namespace Source

/-- The source of a text. -/
def ofText (text : Text) : Source := { text }

instance : Inhabited Source := ⟨ofText []⟩

/-- The number of units. -/
def length (s : Source) : Nat := s.units.size

theorem length_eq (s : Source) : s.length = s.text.length := by
  simp [length, s.units_eq]

/-- The unit at an offset, if the text reaches that far. -/
def unit? (s : Source) (i : Nat) : Option CodeUnit := s.units[i]?

theorem unit?_eq (s : Source) (i : Nat) : s.unit? i = s.text[i]? := by
  simp [unit?, s.units_eq]

/-- The position of an offset, found among the starts of the lines; an offset beyond the end has the
position of the end. -/
def position (s : Source) (i : Nat) : Position :=
  let c := min i s.length
  let n := Text.lastStart s.starts c s.starts.size 0 (s.starts.size - 1)
  { line := n + 1
    col := c - s.starts.getD n 0 + 1
    offset := c }

/-- The position of an offset is reached by reading the text before it. -/
theorem position_eq (s : Source) (i : Nat) :
    s.position i = (s.text.take i).foldl Position.next Position.start := by
  have hc : min i s.text.length ≤ s.text.length := Nat.min_le_right _ _
  have hfold := Text.foldl_next (s.text.take (min i s.text.length)) (l := 1) (Nat.le_refl 0)
  rw [List.length_take_of_le hc, Nat.add_comm 1] at hfold
  simp only [Nat.zero_add] at hfold
  rw [List.take_eq_take_min]
  simp only [position, s.starts_eq, s.length_eq, Text.lastStart_lineStarts hc,
    Text.getD_lineStarts hc]
  exact hfold.symm

/-- The position of any integer offset, taken to the nearest end where it is outside the text. -/
def positionNear (s : Source) (i : Int) : Position := s.position i.toNat

/-- The position of any number as an offset, taken to the nearest end where it is outside the text.
Between two units the column counts the part of the unit that is passed. -/
def place (s : Source) (x : Binary64) : Position Binary64 :=
  let p := s.positionNear x.trunc
  if x.isWhole ∨ x < .zero ∨ .ofNat s.length < x then p.map .ofNat
  else
    { line := .ofNat p.line
      col := x - .ofNat (p.offset + 1 - p.col) + .ofNat 1
      offset := x }

/-- The text from an offset on. -/
def drop (s : Source) (i : Nat) : Text := s.text.drop i

/-- The text between two offsets. -/
def slice (s : Source) (i j : Nat) : Text := (s.units.extract i j).toList

theorem slice_eq (s : Source) (i j : Nat) : s.slice i j = (s.text.take j).drop i := by
  simp [slice, s.units_eq, List.drop_take]

/-- The text `t` stands at an offset. -/
def hasAt (s : Source) : Nat → Text → Bool
  | _, [] => true
  | i, u :: rest => s.unit? i == some u && s.hasAt (i + 1) rest

/-- A text stands at an offset if the source goes on with it there. -/
theorem hasAt_iff (s : Source) (i : Nat) (t : Text) : s.hasAt i t = true ↔ t <+: s.drop i := by
  induction t generalizing i with
  | nil => simp [hasAt]
  | cons u rest ih =>
    simp only [hasAt, Bool.and_eq_true, beq_iff_eq, ih, s.unit?_eq, drop]
    constructor
    · rintro ⟨hu, hr⟩
      obtain ⟨hi, rfl⟩ := List.getElem?_eq_some_iff.1 hu
      rw [List.drop_eq_getElem_cons hi]
      exact (List.prefix_cons_inj _).2 hr
    · intro h
      cases hd : s.text.drop i with
      | nil => simp [hd] at h
      | cons v more =>
        rw [hd, List.cons_prefix_cons] at h
        obtain ⟨rfl, hr⟩ := h
        have hu : s.text[i]? = some u := by
          rw [← List.head?_drop, hd]; rfl
        have hm : s.text.drop (i + 1) = more := by
          rw [← List.drop_drop, hd]; rfl
        exact ⟨hu, hm ▸ hr⟩

/-- The number of lines, at least one. -/
def numLines (s : Source) : Nat := s.starts.size

/-- The offset where the line ends that is followed by the line `n`, counted from zero. -/
def lineEnd (s : Source) (n : Nat) : Nat := (s.starts[n]?).elim s.length (· - 1)

/-- A text without the carriage return at its end, if it has one. -/
def dropReturn (t : Text) : Text :=
  if t.getLast? = some (CodeUnit.of '\r') then t.dropLast else t

/-- The text of a line, counted from one, without its line end; a line that is not there is
empty. -/
def line (s : Source) (number : Int) : Text :=
  if number < 1 then []
  else
    match s.starts[number.toNat - 1]? with
    | none => []
    | some start => dropReturn (s.slice start (s.lineEnd number.toNat))

/-- The text of the line that a number counts; no line has a number that is not whole. -/
def lineAt (s : Source) (number : Binary64) : Text := number.toInt?.elim [] s.line

end Source

/-- Kinds of numbers that are offsets and have a place in every source. -/
class Offset (ν : Type) extends Numeric ν where
  place : Source → ν → Position ν

instance : Offset Nat := { place := Source.position }

instance : Offset Binary64 := { place := Source.place }

end BrookSyntax
