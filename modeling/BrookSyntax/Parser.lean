import BrookSyntax.Cursor
import BrookSyntax.Failure

namespace BrookSyntax

/-- What a parser gives: a value and the place after it, or a failure. -/
inductive Result (α : Type) where
  | ok (cursor : Cursor) (value : α)
  | failed (failure : Failure)
deriving Inhabited

/-- A parser of values of a type. -/
def Parser (α : Type) := Source → Cursor → Result α

namespace Parser

variable {α β γ : Type}

instance : Monad Parser where
  pure a := fun _ c => .ok c a
  bind p f := fun s c =>
    match p s c with
    | .ok d a => f a s d
    | .failed e => .failed e

theorem pure_apply (a : α) (s : Source) (c : Cursor) : (pure a : Parser α) s c = .ok c a := rfl

theorem bind_apply (p : Parser α) (f : α → Parser β) (s : Source) (c : Cursor) :
    (p >>= f) s c =
      match p s c with
      | .ok d a => f a s d
      | .failed e => .failed e := rfl

theorem map_apply (f : α → β) (p : Parser α) (s : Source) (c : Cursor) :
    (f <$> p) s c =
      match p s c with
      | .ok d a => .ok d (f a)
      | .failed e => .failed e := rfl

theorem seqRight_apply (p : Parser α) (q : Parser β) (s : Source) (c : Cursor) :
    (p *> q) s c =
      match p s c with
      | .ok d _ => q s d
      | .failed e => .failed e := rfl

theorem seqLeft_apply (p : Parser α) (q : Parser β) (s : Source) (c : Cursor) :
    (p <* q) s c =
      match p s c with
      | .ok d a =>
        match q s d with
        | .ok e _ => .ok e a
        | .failed e => .failed e
      | .failed e => .failed e := rfl

/-- Fails where it stands, open to other attempts. -/
def fail (cause : Cause) : Parser α := fun _ c => .failed { cause, offset := c.offset }

/-- Fails where it stands, for good. -/
def abort (cause : Cause) : Parser α := fun _ c =>
  .failed { cause, offset := c.offset, committed := true }

/-- Runs the parsers one after the other and collects their values. -/
def sequence : List (Parser α) → Parser (List α)
  | [] => pure []
  | p :: rest => do
    let a ← p
    let as ← sequence rest
    pure (a :: as)

/-- The value of the middle one of three parsers. -/
def between (p : Parser α) (q : Parser β) (r : Parser γ) : Parser β := p *> q <* r

/-- Applies a function to the value and the span of what was read. -/
def mapSpan (p : Parser α) (f : α → Span → β) : Parser β := fun s c =>
  match p s c with
  | .ok d a => .ok d (f a (c.spanTo d s))
  | .failed e => .failed e

/-- The text that a parser reads. -/
def consumed (p : Parser α) : Parser Text := fun s c =>
  match p s c with
  | .ok d _ => .ok d (c.sliceTo d s)
  | .failed e => .failed e

/-- The depth of nesting here; reads nothing. -/
def depth : Parser Int := fun _ c => .ok c c.depth

end Parser

end BrookSyntax
