import BrookSyntax.Parser

namespace BrookSyntax

namespace Failure

/-- The failure that got farthest, the first one of those that got equally far. -/
def farthest : Failure → List Failure → Failure
  | best, [] => best
  | best, f :: rest => farthest (if best.offset < f.offset then f else best) rest

/-- The failure that stands for the failures of all alternatives tried from an offset: the farthest
one if it got beyond the start or was the only one, else one that lists all their causes. -/
def merge (offset : Nat) : List Failure → Failure
  | [] => { cause := .alternatives [], offset }
  | f :: rest =>
    let best := farthest f rest
    if offset < best.offset ∨ rest = [] then best
    else { cause := .alternatives (Cause.flatten ((f :: rest).map Failure.cause)), offset }

end Failure

namespace Parser

variable {α β : Type}

/-- The first success or committed failure of some parsers, or else all their failures in order. -/
def attempts (s : Source) (c : Cursor) : List (Parser α) → Result α ⊕ List Failure
  | [] => .inr []
  | p :: rest =>
    match p s c with
    | .ok d a => .inl (.ok d a)
    | .failed f =>
      if f.committed then .inl (.failed f)
      else
        match attempts s c rest with
        | .inl result => .inl result
        | .inr failures => .inr (f :: failures)

/-- Tries the parsers in order from the same cursor. -/
def choice (ps : List (Parser α)) : Parser α := fun s c =>
  match attempts s c ps with
  | .inl result => result
  | .inr failures => .failed (Failure.merge c.offset failures)

/-- The value of a parser, or none where it fails without being committed. -/
def optional (p : Parser α) : Parser (Option α) := fun s c =>
  match p s c with
  | .ok d a => .ok d (some a)
  | .failed f => if f.committed then .failed f else .ok c none

/-- The value of a parser, or none where it fails, committed or not. -/
def attempt (p : Parser α) : Parser (Option α) := fun s c =>
  match p s c with
  | .ok d a => .ok d (some a)
  | .failed _ => .ok c none

/-- Runs a parser again and again, at most a given number of times, until it fails or stands still;
what the last run read is then given up. -/
def manyWithin (p : Parser α) : Nat → Parser (List α)
  | 0 => pure []
  | n + 1 => fun s c =>
    match p s c with
    | .failed f => if f.committed then .failed f else .ok c []
    | .ok d a =>
      if d.offset = c.offset then .ok c []
      else
        match manyWithin p n s d with
        | .ok e as => .ok e (a :: as)
        | .failed f => .failed f

/-- Runs a parser again and again until it fails or stands still. Every run but the last reads at
least one unit, so one run more than there are units left is enough. -/
def many (p : Parser α) : Parser (List α) := fun s c =>
  manyWithin p (s.length - c.offset + 1) s c

/-- Items with a separator between neighbours, possibly none; a separator after the last item is not
read. -/
def sepBy (item : Parser α) (separator : Parser β) : Parser (List α) := fun s c =>
  match item s c with
  | .failed f => if f.committed then .failed f else .ok c []
  | .ok d a =>
    match many (separator *> item) s d with
    | .ok e as => .ok e (a :: as)
    | .failed f => .failed f

end Parser

end BrookSyntax
