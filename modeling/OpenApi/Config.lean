import OpenApi.Artifact.Target
import OpenApi.Name.Reserved
import OpenApi.Schema.Policy
import OpenApi.Source

/-!
The settings of a run.
-/
namespace OpenApi

structure Config where
  input : Option DiskPath := none
  targets : List (Target × String) := []
  naming : Naming := {}
  policy : MergePolicy := .lastWins
  clientImport : String := "./client"
  routesImport : String := "./routes"
  typesImport : String := "./types"
  /-- Null, or a whole number from one on, or the truth value that stands for one. -/
  workers : Value := .null

namespace Config

/-- The targets asked for, in the order in which artifacts are made. -/
def selected (config : Config) : List Target :=
  Target.all.filter fun t => (config.targets.lookup t).isSome

def knownKeys : List String :=
  ["input", "targets", "naming", "allof_policy", "client_import", "routes_import", "types_import",
    "max_workers"]

/-- Texts among `keys`; any other key cannot be named in a message. -/
def texts (keys : List Scalar) : Checked (List String) :=
  keys.mapM fun
    | .str s => .ok s
    | _ => .error .wrongKind

def checkKeys (raw : Entries) : Checked Unit := do
  let unknown := (raw.map Prod.fst).filter fun k => !knownKeys.any fun key => k.same (.str key)
  if !unknown.isEmpty then
    let names ← texts unknown
    throw (.config (.unknownKeys (names.mergeSort (· ≤ ·))))

/-- The entries that a list of targets stands for. -/
def listedTargets (items : List Value) : Checked Entries := do
  let pairs ← items.mapM fun
    | .scalar k => do
      return (k, Value.str ((← k.text) ++ if k.same (.str "docs") then ".md" else ".ts"))
    | _ => .error .wrongKind
  return Entries.ofList pairs

def target? : Scalar → Option Target
  | .str s => Target.ofText? s
  | _ => none

/-- The targets with what is given as their files. -/
def parseTargets (raw : Value) : Checked (List (Target × Value)) := do
  let entries ←
    match raw with
    | .list items => listedTargets items
    | .map entries => .ok entries
    | _ => .error (.config .targetsNotAMapping)
  let bad := (entries.map Prod.fst).filter fun k => (target? k).isNone
  if !bad.isEmpty then
    throw (.config (.unknownTargets (← texts bad) (Target.all.map (·.text))))
  return entries.filterMap fun (k, v) => (target? k).map fun t => (t, v)

def parsePolicy (raw : Value) : Checked MergePolicy :=
  match raw.str?.bind MergePolicy.ofText? with
  | some policy => .ok policy
  | none => .error (.config (.unknownPolicy (MergePolicy.all.map (·.text))))

def parseWorkers (raw : Value) : Checked Value :=
  match raw with
  | .null => .ok raw
  | .bool b => if b then .ok raw else .error (.config .workers)
  | .int n => if n < 1 then .error (.config .workers) else .ok raw
  | _ => .error (.config .workers)

def parseInput (raw : Value) : Checked (Option DiskPath) :=
  if raw.truthy then
    match raw with
    | .str s => .ok (some (.ofText s))
    | _ => .error .wrongKind
  else .ok none

/-- A set of words, in order and without repetition. -/
def wordSet (words : List String) : List String := (words.mergeSort (· ≤ ·)).eraseDups

def catalogSet? (name : Scalar) : Option (List String) :=
  match name with
  | .str s => wordCatalog.lookup s
  | _ => none

/-- Sets of a catalog, asked for by name. -/
def listedSets (names : List Value) : Checked (List (Scalar × List String)) := do
  let mut sets := []
  for name in names do
    match name with
    | .scalar k =>
      match catalogSet? k with
      | some words =>
        if !sets.any fun (k', _) => k.same k' then sets := sets ++ [(k, words)]
      | none => throw (.config (.unknownWordSet (← k.inner)))
    | _ => throw .wrongKind
  return sets

/-- Sets given by their words, or by a name of the catalog without words. -/
def givenSet (name : Scalar) (words : Value) : Checked (Scalar × List String) := do
  match words, catalogSet? name with
  | .null, some known => return (name, known)
  | .list items, _ => return (name, wordSet (← items.mapM Value.text))
  | _, _ => throw (.config (.wordSetNotAList (← name.inner)))

def parseReserved (raw : Value) : Checked (List (Scalar × List String)) :=
  match raw with
  | .list names => listedSets names
  | .map entries => entries.mapM fun (name, words) => givenSet name words
  | _ => .error (.config .wordSetsNotAMapping)

def parseNaming (raw : Value) : Checked Naming := do
  match raw with
  | .map entries =>
    let entries : Entries := entries
    let reserved ← parseReserved
      ((entries.get? "reserved_words").getD (.list (wordCatalog.map fun (k, _) => .str k)))
    let suffix ← ((entries.get? "reserved_suffix").getD (.str "_")).text
    if suffix.isEmpty then throw (.config .emptySuffix)
    return {
      reserved, suffix
      separator := ← ((entries.get? "collision_separator").getD (.str "_")).text
      caseInsensitive := ((entries.get? "case_insensitive").getD (.bool false)).truthy }
  | _ => throw (.config .namingNotAMapping)

/-- Checks loosely typed settings. -/
def ofValue (raw : Value) : Checked Config := do
  match raw with
  | .map entries =>
    let entries : Entries := entries
    checkKeys entries
    let text (key default : String) : Checked String := ((entries.get? key).getD (.str default)).text
    let targets ← parseTargets ((entries.get? "targets").getD (.map []))
    let policy ← parsePolicy
      ((entries.get? "allof_policy").getD (.str MergePolicy.lastWins.text))
    let workers ← parseWorkers ((entries.get? "max_workers").getD .null)
    let input ← parseInput ((entries.get? "input").getD .null)
    let targets ← targets.mapM fun (t, file) => do return (t, ← file.text)
    let naming ← parseNaming ((entries.get? "naming").getD (.map []))
    return {
      input, targets, naming, policy, workers
      clientImport := ← text "client_import" "./client"
      routesImport := ← text "routes_import" "./routes"
      typesImport := ← text "types_import" "./types" }
  | _ => throw (.config .notAMapping)

/-- Reads the settings in a file. The input is looked for from the directory of the file. -/
def load {m : Type → Type} [Monad m] [Host m] (path : DiskPath) : Run m Config := do
  let text ← Run.readFile path fun e => .config (.unreadable path.text e)
  let raw ← MonadExcept.ofExcept (Source.parse path text fun e => .config (.malformed path.text e))
  let config ← MonadExcept.ofExcept (ofValue raw.orEmpty)
  return { config with input := config.input.map path.parent.join }

end Config
end OpenApi
