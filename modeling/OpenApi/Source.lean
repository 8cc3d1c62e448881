import OpenApi.Disk.Run
import OpenApi.Document
import OpenApi.Json.Parser
import OpenApi.Yaml.Data

/-!
Data files. A file named `.json` holds JSON, every other file YAML.
-/
namespace OpenApi.Source

/-- Line ends of every kind as line feeds. -/
def unifyNewlines : List Char → List Char
  | '\r' :: '\n' :: rest => '\n' :: unifyNewlines rest
  | '\r' :: rest => '\n' :: unifyNewlines rest
  | c :: rest => c :: unifyNewlines rest
  | [] => []

/-- The data in the text of a file; `report` tells what a malformed text means to the reader. -/
def parse (path : DiskPath) (text : String) (report : ParseError → Fault) : Checked Value :=
  let text := String.ofList (unifyNewlines text.toList)
  if path.suffix == ".json" then
    match Json.parse text with
    | .ok v => .ok v
    | .error e =>
      if e.reason = .tooManyDigits then .error .wrongKind else .error (report (.json e))
  else
    match Yaml.parse text with
    | .ok v => .ok v
    | .error .malformed => .error (report .yaml)
    | .error .unrepresentable => .error .wrongKind

/-- Reads the API description in a file. -/
def load {m : Type → Type} [Monad m] [Host m] (path : DiskPath) : Run m Value := do
  let text ← Run.readFile path fun e => .document (.unreadable path.text e)
  let data ← MonadExcept.ofExcept (parse path text fun e => .document (.malformed path.text e))
  MonadExcept.ofExcept (Document.check path.text data)

end OpenApi.Source
