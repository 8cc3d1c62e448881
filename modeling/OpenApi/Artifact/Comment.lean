import OpenApi.Text.Search
import OpenApi.Value.Access
import OpenApi.View.Basic

/-!
Text of a document inside of comments.
-/
namespace OpenApi.Artifact

/-- Keeps a text from closing the comment it stands in. -/
def commentText (s : String) : String := Text.replace s "*/" "*\\/"

/-- The lines of a comment, with an empty one behind the first. -/
def commentLines (lines : List String) : List String :=
  match lines.map fun line => " * " ++ commentText line with
  | first :: second :: rest => first :: " *" :: second :: rest
  | few => few

/-- A comment of one or more lines. -/
def comment (lines : List Value) : Checked (List String) := do
  return "/**" :: commentLines (← lines.mapM Value.text) ++ [" */"]

/-- The first line of an artifact with so many operations. -/
def headerLine (title version : String) (operations : Nat) : String :=
  "// Generated by oasgen from " ++ commentText title ++ " " ++ commentText version
    ++ s!" ({operations} operations). Do not edit."

def header (v : View) : Checked String :=
  return headerLine (← v.title.text) (← v.version.text) v.operations.length

/-- What is printed for each of several things, one after the other. -/
def each {α : Type} (items : List α) (print : α → Checked (List String)) : Checked (List String) :=
  return (← items.mapM print).flatten

/-- The text of an artifact. -/
def ofLines (lines : List String) : String := String.join (lines.map (· ++ "\n"))

end OpenApi.Artifact
