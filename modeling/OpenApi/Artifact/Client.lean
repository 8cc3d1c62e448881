import OpenApi.Artifact.Comment
import OpenApi.TypeScript.Literal

/-!
What the artifacts for clients have in common: imports, a function per operation that sends the
request, and one that makes its cache key.
-/
namespace OpenApi.Artifact.Client

open TypeScript (quoted)

/-- The argument of an operation in front of another parameter. -/
def parameter (op : OperationView) : String :=
  match op.args with
  | some args => "args: " ++ args ++ ", "
  | none => ""

/-- A text that stands only where an operation takes an argument. -/
def ifArgs (op : OperationView) (text : String) : String := if op.args.isSome then text else ""

/-- A text that stands only where the cache key of an operation holds its argument. -/
def ifKeyed (op : OperationView) (text : String) : String :=
  if op.args.isSome && op.isQuery then text else ""

/-- The method in capitals, and the path. -/
def title (op : OperationView) : String :=
  Text.upper op.method ++ " " ++ commentText op.path

def typeImports (v : View) : List String :=
  if v.types.isEmpty then [""]
  else
    "import type \x7b" :: v.types.map (fun t => s!"  {t.identifier},")
      ++ [s!"\x7d from '{v.typesImport}'"]

/-- The imports of every client. -/
def imports (v : View) : List String :=
  ["import type \x7b ClientRequestOptions \x7d from 'hono/client'",
    "import \x7b parseResponse \x7d from 'hono/client'",
    s!"import \x7b client \x7d from '{v.clientImport}'"]
    ++ typeImports v

/-- The function that sends the request, under the comment `doc`. -/
def fetcher (doc : List String) (op : OperationView) : List String :=
  let args := if op.args.isSome then "args" else "undefined"
  doc ++ [
    s!"export async function {op.function}({parameter op}options?: ClientRequestOptions) \x7b",
    s!"  return await parseResponse({op.accessor}({args}, options))",
    "\x7d"]

/-- The function that makes the cache key, for the library named by `library`. -/
def keyFunction (library : String) (op : OperationView) : List String :=
  let args := ifKeyed op ", args"
  let parameter := ifKeyed op ("args: " ++ op.args.getD "")
  ["/**",
    s!" * Generates {library} cache key for {title op}",
    s!" * Returns structured key ['prefix', 'method', 'path'{args}] for filtering",
    " */",
    s!"export function {op.cacheKey}({parameter}) \x7b",
    s!"  return [{quoted op.group}, '{Text.upper op.method}', {quoted op.path}{args}] as const",
    "\x7d"]

/-- The type of what an operation resolves to. -/
def result (op : OperationView) : String := s!"Awaited<ReturnType<typeof {op.function}>>"

/-- A client: its own imports, the common ones, and what `operation` prints for each operation under
the comment on it. -/
def lines (v : View) (own : List String)
    (operation : List String → OperationView → List String) : Checked (List String) := do
  let operations ← each v.operations fun op => do return operation (← comment op.doc) op
  return [← header v, ""] ++ own ++ imports v ++ operations

end OpenApi.Artifact.Client
