import OpenApi.Artifact.Comment
import OpenApi.Text.Split

/-!
The reference of an API, in Markdown.
-/
namespace OpenApi.Artifact.Docs

/-- A text inside of a table: on one line, with no bar that would end the cell. -/
def cell (s : String) : String := Text.replace (Text.replace s "|" "\\|") "\n" " "

/-- A text set off as code. -/
def code (s : String) : String := "\x60" ++ s ++ "\x60"

def row (cells : List String) : String := "| " ++ Text.join " | " cells ++ " |"

def table (columns : List String) (rows : List (List String)) : List String :=
  row columns :: row (columns.map fun _ => "---") :: rows.map row

/-- A value that says nothing is an empty text. -/
def orBlank (v : Value) : Value := if v.truthy then v else .str ""

def yesNo (b : Bool) : String := if b then "yes" else "no"

def parameter (p : ParameterView) : List String := [
  cell p.name, p.location.text, code (cell p.type), yesNo p.required,
  cell (p.description.getD "")]

def body (b : BodyView) : List String := [
  "body", "body", code (cell b.ts), yesNo b.required, b.contentType.getD "None"]

def parameters (op : OperationView) : List String :=
  if op.parameters.isEmpty && op.body.isNone then []
  else
    ["", "### Parameters", ""]
      ++ table ["Name", "In", "Type", "Required", "Description"]
        (op.parameters.map parameter ++ op.body.toList.map body)

def response (r : ResponseView) : List String := [
  r.status, cell r.description, r.contentType.getD "",
  ((r.ts.map fun ts => code (cell ts)).getD "")]

def responses (op : OperationView) : List String :=
  ["", "### Responses", ""]
    ++ table ["Status", "Description", "Content type", "Schema"] (op.responses.map response)

def authentication (op : OperationView) : String :=
  if op.securityNames.isEmpty then "> This operation does not require authentication"
  else "> Authentication: " ++ Text.join ", " op.securityNames

/-- The lines on an operation behind the first, as paragraphs. -/
def paragraphs (op : OperationView) : Checked (List String) :=
  each ((op.doc.drop 1).filter fun line => !line.same (.str "@deprecated")) fun line => do
    return ["", ← line.text]

def operation (op : OperationView) : Checked (List String) := do
  return ["", "## " ++ op.label, "", code (Text.upper op.method ++ " " ++ op.path)]
    ++ (if op.deprecated then ["", "> Deprecated"] else [])
    ++ (← paragraphs op) ++ parameters op ++ responses op ++ ["", authentication op]

def scheme (s : SchemeView) : Checked (List String) := do
  return [cell (← s.name.text), ← s.type.text, cell (← s.detail.text),
    cell (← (orBlank s.description).text)]

def schemes (list : List SchemeView) : Checked (List String) := do
  if list.isEmpty then return []
  return ["", "## Security schemes", ""]
    ++ table ["Name", "Type", "Details", "Description"] (← list.mapM scheme)

def indexLine (entry : String × List String) : String :=
  "- " ++ code entry.1 ++ " " ++ Text.join " " entry.2

def lines (d : DocsView) : Checked (List String) := do
  let v := d.view
  let title ← v.title.text
  let version ← v.version.text
  let description ← if d.description.truthy then pure ["", ← d.description.text] else pure []
  return ["<!-- Generated by oasgen from " ++ title ++ " " ++ version
      ++ s!" ({v.operations.length} operations). Do not edit. -->",
    "",
    "# " ++ title ++ " v" ++ version]
    ++ description ++ [""] ++ d.index.map indexLine
    ++ (← each v.operations operation) ++ (← schemes d.schemes)

end OpenApi.Artifact.Docs
