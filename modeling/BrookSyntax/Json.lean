import BrookSyntax.Binary64.Shortest

namespace BrookSyntax

/-- A JSON value; an object lists its members in order. -/
inductive Json where
  | null
  | bool (value : Bool)
  | number (value : Binary64)
  | text (value : Text)
  | array (items : List Json)
  | object (members : List (Text × Json))
deriving Inhabited

/-- One level of a JSON value, with something else in place of the values inside it. -/
inductive Layer (α : Type) where
  | null
  | bool (value : Bool)
  | number (value : Binary64)
  | text (value : Text)
  | array (items : List α)
  | object (members : List (Text × α))

namespace Json

variable {α : Type}

/-- The integer as a number. -/
def int (i : Int) : Json := .number (Binary64.ofInt i)

/-- The member of an object stored under a key. -/
def field? (key : Text) : Json → Option Json
  | object members => members.lookup key
  | _ => none

theorem lookup_cons (key : Text) (member : Text × α) (rest : List (Text × α)) :
    (member :: rest).lookup key = if member.1 = key then some member.2 else rest.lookup key := by
  rw [List.lookup_cons]
  by_cases h : member.1 = key
  · rw [if_pos h, beq_iff_eq.2 h.symm]
  · rw [if_neg h, beq_eq_false_iff_ne.2 (Ne.symm h)]

mutual

/-- Replaces every value, from the inside out, by what a function makes of its level. -/
def fold (f : Layer α → α) : Json → α
  | null => f .null
  | bool value => f (.bool value)
  | number value => f (.number value)
  | text value => f (.text value)
  | array items => f (.array (foldItems f items))
  | object members => f (.object (foldMembers f members))

def foldItems (f : Layer α → α) : List Json → List α
  | [] => []
  | item :: rest => item.fold f :: foldItems f rest

def foldMembers (f : Layer α → α) : List (Text × Json) → List (Text × α)
  | [] => []
  | (key, value) :: rest => (key, value.fold f) :: foldMembers f rest

end

end Json

end BrookSyntax
