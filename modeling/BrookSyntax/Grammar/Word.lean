import BrookSyntax.Parser.Token
import BrookSyntax.Tree

namespace BrookSyntax

/-- The words that are not names. -/
def keywords : List Text :=
  ["if", "else", "while", "loop", "break", "continue", "return", "let", "const", "fn", "true",
    "false", "null"]

namespace Grammar

open BrookSyntax.Parser

/-- A whole word, reserved or not. -/
def word : Parser Text :=
  consumed (satisfy CodeUnit.isWordStart "identifier" *> takeWhile CodeUnit.isWordPart)

/-- A word that is not reserved. -/
def identifier : Parser Text := fun s c =>
  match word s c with
  | .ok d text =>
    if keywords.contains text then fail (.token "identifier") s c else .ok d text
  | .failed f => .failed f

def name : Parser Name := mapSpan identifier Name.mk

end Grammar

end BrookSyntax
