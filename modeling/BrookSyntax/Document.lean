import BrookSyntax.Diagnostic
import BrookSyntax.Json.Reader
import BrookSyntax.Json.Writer
import BrookSyntax.Tree.Image
import BrookSyntax.Tree.Reading
import BrookSyntax.Tree.Shape

namespace BrookSyntax

/-- The version of the format. -/
def formatVersion : Text := "1.0"

/-- The document of a program. -/
def Program.document (program : Program) (metadata : Option (List (Text × Text))) : Json :=
  let members : List (Text × Json) :=
    [("version", .text formatVersion), ("program", program.toJson)]
  match metadata with
  | none => .object members
  | some entries =>
    let last : Text × Json :=
      ("metadata", .record (entries.map fun entry => (entry.1, .text entry.2)))
    .object (members ++ [last])

/-- Writes the document of a program, indented. -/
def Program.write (program : Program) (metadata : Option (List (Text × Text))) : Text :=
  (program.document metadata).write .indented

namespace Json

mutual

/-- A value as plain text: the items of an array are joined by commas, null items being empty, and
an object gives no more than that it is one. An object with a member of its own that would have to
make the text has none. -/
def plain? : Json → Option Text
  | null => some "null"
  | bool value => some (writeBool value)
  | number value => some value.text
  | text value => some value
  | array items => (plainItems? items).map (Text.join ",")
  | object members =>
    if (members.lookup ("toString" : Text)).isSome then none else some "[object Object]"

def plainItems? : List Json → Option (List Text)
  | [] => some []
  | null :: rest => (plainItems? rest).map ([] :: ·)
  | item :: rest => item.plain?.bind fun t => (plainItems? rest).map (t :: ·)

end

end Json

/-- Why a text is not read as a program. -/
inductive DocumentError where
  | malformed
  | notObject
  | version (found : Text)
  | unprintableVersion
  | shape (violation : Violation)
  | notProgram
deriving DecidableEq

namespace DocumentError

/-- The draft of the report; a version that has no text gives none. -/
def draft? : DocumentError → Option Draft
  | malformed => some (.invalidTree "malformed JSON")
  | notObject => some (.invalidTree "expected object")
  | version found => some (.unsupportedVersion found)
  | unprintableVersion => none
  | shape violation => some (.invalidTree violation.message)
  | notProgram => some (.invalidTree "does not match the AST schema")

/-- The report on the error. -/
def diagnostic? (e : DocumentError) : Option Diagnostic :=
  e.draft?.bind fun draft => draft.build.toOption

def message (e : DocumentError) : Text :=
  match e.diagnostic? with
  | some d => d.message
  | none => "Cannot convert object to primitive value"

end DocumentError

/-- Checks the version of a document. -/
def Json.checkVersion (value : Json) : Except DocumentError Unit :=
  match value.field? "version" with
  | none => .error (.version "missing")
  | some found =>
    match found.plain? with
    | none => .error .unprintableVersion
    | some shown =>
      match found with
      | .text _ => if shown = formatVersion then .ok () else .error (.version shown)
      | _ => .error (.version shown)

/-- The program of a document whose syntax has been read. The first step that fails names the
error. -/
def Program.ofDocument (value : Json) : Except DocumentError Program :=
  match value with
  | .object _ => do
    value.checkVersion
    match value.violation? Record.fields (.record .document) with
    | some violation => .error (.shape violation)
    | none =>
      match (value.field? "program").bind Program.ofJson? with
      | some program => .ok program
      | none => .error .notProgram
  | _ => .error .notObject

/-- Reads a program from the text of a document. -/
def Program.read (t : Text) : Except DocumentError Program :=
  match Json.read? t with
  | none => .error .malformed
  | some value => Program.ofDocument value

/-- The text is a document of a program. -/
def Program.isDocument (t : Text) : Bool :=
  match Program.read t with
  | .ok _ => true
  | .error _ => false

end BrookSyntax
