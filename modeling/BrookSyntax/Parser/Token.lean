import BrookSyntax.Parser

namespace BrookSyntax

namespace Source

/-- The end of the run of units that starts at an offset and satisfies a test; it is sought over at
most a given number of units. -/
def runEnd (s : Source) (test : CodeUnit → Bool) : Nat → Nat → Nat
  | 0, i => i
  | n + 1, i =>
    match s.unit? i with
    | some u => if test u then s.runEnd test n (i + 1) else i
    | none => i

/-- The end of the trivia that starts at an offset: white space and comments, which run from two
slashes up to a newline. The flag tells whether the offset is inside a comment. -/
def triviaEnd (s : Source) : Nat → Bool → Nat → Nat
  | 0, _, i => i
  | n + 1, true, i =>
    match s.unit? i with
    | some u => s.triviaEnd n (u != CodeUnit.newline) (i + 1)
    | none => i
  | n + 1, false, i =>
    match s.unit? i with
    | some u =>
      if u.isSpace then s.triviaEnd n false (i + 1)
      else if s.hasAt i "//" then s.triviaEnd n true (i + 1)
      else i
    | none => i

end Source

namespace Parser

/-- The text itself. -/
def literal (text : Text) : Parser Text := fun s c =>
  if s.hasAt c.offset text then .ok (c.advance s text.length) text
  else .failed { cause := .literal text, offset := c.offset }

/-- The text itself, where what follows it, a unit or the end of the source, is not forbidden. -/
def literalBefore (text : Text) (forbidden : Option CodeUnit → Bool) : Parser Text := fun s c =>
  if s.hasAt c.offset text && !forbidden (s.unit? (c.offset + text.length)) then
    .ok (c.advance s text.length) text
  else .failed { cause := .literal text, offset := c.offset }

/-- A whole word: the text itself where no word goes on after it. -/
def keyword (word : Text) : Parser Text := literalBefore word (·.any CodeUnit.isWordPart)

/-- One unit that satisfies a test. -/
def satisfy (test : CodeUnit → Bool) (description : Text) : Parser Text := fun s c =>
  match c.peek? s with
  | some u =>
    if test u then .ok (c.advance s 1) [u]
    else .failed { cause := .token description, offset := c.offset }
  | none => .failed { cause := .token description, offset := c.offset }

/-- The longest run of units that satisfy a test, possibly empty. -/
def takeWhile (test : CodeUnit → Bool) : Parser Text := fun s c =>
  let d := { c with offset := s.runEnd test (s.length - c.offset) c.offset }
  .ok d (c.sliceTo d s)

/-- Skips white space. -/
def spaces : Parser Unit := fun s c =>
  .ok { c with offset := s.runEnd CodeUnit.isSpace (s.length - c.offset) c.offset } ()

/-- Skips white space and comments. -/
def trivia : Parser Unit := fun s c =>
  .ok { c with offset := s.triviaEnd (s.length - c.offset) false c.offset } ()

/-- A parser after the trivia before it. -/
def spaced {α : Type} (p : Parser α) : Parser α := trivia *> p

/-- Succeeds where nothing is left to read. -/
def endOfInput : Parser Unit := fun s c =>
  if c.atEnd s then .ok c () else .failed { cause := .token "end of input", offset := c.offset }

end Parser

end BrookSyntax
