import OpenApi.Value.Basic

/-!
Words that may not be used as names, and what is done about them.
-/
namespace OpenApi

/-- Words that cannot name a type or a binding in TypeScript, in order. -/
def typescriptWords : List String :=
  ["any", "arguments", "await", "bigint", "boolean", "break", "case", "catch", "class", "const",
    "continue", "debugger", "default", "delete", "do", "else", "enum", "eval", "export",
    "extends", "false", "finally", "for", "function", "if", "implements", "import", "in",
    "instanceof", "interface", "let", "never", "new", "null", "number", "object", "package",
    "private", "protected", "public", "return", "static", "string", "super", "switch", "symbol",
    "this", "throw", "true", "try", "type", "typeof", "undefined", "unknown", "var", "void",
    "while", "with", "yield"]

/-- The keywords of Python, in order. -/
def pythonWords : List String :=
  ["False", "None", "True", "_", "and", "as", "assert", "async", "await", "break", "case",
    "class", "continue", "def", "del", "elif", "else", "except", "finally", "for", "from",
    "global", "if", "import", "in", "is", "lambda", "match", "nonlocal", "not", "or", "pass",
    "raise", "return", "try", "while", "with", "yield"]

/-- The sets of reserved words that a configuration can ask for by name. -/
def wordCatalog : List (String × List String) :=
  [("typescript", typescriptWords), ("python", pythonWords)]

/-- How names are made. A reserved name gets `suffix`; the `n`-th name that would be the same as an
earlier one gets `separator` and `n`. -/
structure Naming where
  reserved : List (Scalar × List String) := wordCatalog.map fun (k, ws) => (.str k, ws)
  suffix : String := "_"
  separator : String := "_"
  caseInsensitive : Bool := false

namespace Naming

def isReserved (naming : Naming) (name : String) : Bool :=
  naming.reserved.any fun (_, words) => words.contains name

/-- Puts the suffix behind a reserved name. -/
def unreserve (naming : Naming) (name : String) : String :=
  if naming.isReserved name then name ++ naming.suffix else name

end Naming
end OpenApi
