import BrookSyntax.Json

namespace BrookSyntax

namespace Json

variable {α : Type}

/-- Sets a key: its value is replaced where it stands, or it is added at the end. -/
def set (key : Text) (value : α) : List (Text × α) → List (Text × α)
  | [] => [(key, value)]
  | (k, a) :: rest => if k = key then (key, value) :: rest else (k, a) :: set key value rest

theorem lookup_set (key other : Text) (value : α) (members : List (Text × α)) :
    (set key value members).lookup other =
      if key = other then some value else members.lookup other := by
  induction members with
  | nil => rw [set, lookup_cons]
  | cons member rest ih =>
    obtain ⟨k, a⟩ := member
    rw [set]
    split
    · next h =>
      subst h
      rw [lookup_cons, lookup_cons]
      split <;> rfl
    · next h =>
      rw [lookup_cons, lookup_cons, ih]
      split
      · next hk => subst hk; simp [Ne.symm h]
      · rfl

/-- Sets keys one after the other. -/
def setAll (members : List (Text × α)) (fields : List (Text × α)) : List (Text × α) :=
  fields.foldl (fun ms field => set field.1 field.2 ms) members

/-- The index that a key writes: a whole number below `2 ^ 32 - 1` without needless zeros. -/
def index? (key : Text) : Option Nat :=
  if key ≠ [] ∧ key.all CodeUnit.isDigit ∧ Text.ofNat (Text.toNat key) = key ∧
      Text.toNat key < 2 ^ 32 - 1 then
    some (Text.toNat key)
  else none

/-- The members whose keys are indices, by increasing index. -/
def indexed (members : List (Text × α)) : List (Nat × Text × α) :=
  (members.filterMap fun member => (index? member.1).map fun n => (n, member)).mergeSort
    fun a b => a.1 ≤ b.1

/-- The members in the order in which a record lists them. -/
def listed (members : List (Text × α)) : List (Text × α) :=
  (indexed members).map Prod.snd ++ members.filter fun member => (index? member.1).isNone

/-- The record with the given fields. -/
def record (fields : List (Text × Json)) : Json := .object (listed (setAll [] fields))

end Json

end BrookSyntax
