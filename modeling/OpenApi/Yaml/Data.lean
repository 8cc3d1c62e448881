import OpenApi.Yaml.Node
import OpenApi.Yaml.Plain

/-!
The data behind a YAML text. A mapping under the key `<<` gives its entries to the mapping around
it, in front of that mapping's own; of a list of mappings the first ones win. Data are made level by
level from the root down, and the first fault on that way decides.
-/
namespace OpenApi.Yaml

/-- A node with its plain scalars read and its entries given on. -/
inductive Draft where
  | scalar (s : Scalar)
  /-- A scalar that stands for no data. -/
  | unreadable (e : DataError)
  | list (items : List Draft)
  | map (pairs : List (Draft × Draft))
  /-- A list or mapping inside of itself. -/
  | endless
  /-- A mapping that is to take over entries from what is no mapping. -/
  | unmergeable

namespace Draft

def ofPlain : Plain → Draft
  | .scalar s => .scalar s
  | .unrepresentable => .unreadable .unrepresentable
  | .merge | .default => .unreadable .malformed

/-- The pairs that a value under `<<` gives. -/
def given? : Draft → Option (List (Draft × Draft))
  | .map pairs => some pairs
  | .list items => items.foldrM (fun item after =>
      match item with
      | .map pairs => some (after ++ pairs)
      | _ => none) []
  | _ => none

end Draft

def plainOf : Node → Option Plain
  | .scalar text true => some (.ofText text)
  | _ => none

mutual

def Node.draft : Node → Draft
  | .scalar text false => .scalar (.str text)
  | .scalar text true => .ofPlain (.ofText text)
  | .sequence items => .list (draftItems items)
  | .mapping pairs =>
    match draftPairs? pairs with
    | some (merged, own) => .map (merged ++ own)
    | none => .unmergeable
  | .endless => .endless

def draftItems : List Node → List Draft
  | [] => []
  | x :: xs => x.draft :: draftItems xs

/-- The pairs that are taken over, and the mapping's own. -/
def draftPairs? : List (Node × Node) → Option (List (Draft × Draft) × List (Draft × Draft))
  | [] => some ([], [])
  | (k, v) :: rest => do
    let (merged, own) ← draftPairs? rest
    match plainOf k with
    | some .merge => return ((← v.draft.given?) ++ merged, own)
    | some .default => return (merged, (.scalar (.str "="), v.draft) :: own)
    | _ => return (merged, (k.draft, v.draft) :: own)

end

namespace Draft

/-- The fault that is met where a value is put in its place. -/
def valueFault : Draft → List DataError
  | .unreadable e => [e]
  | .endless => [.unrepresentable]
  | _ => []

/-- The fault that is met where a key is put in its place: only scalars are keys. -/
def keyFault : Draft → List DataError
  | .scalar _ => []
  | .unreadable e => [e]
  | _ => [.malformed]

/-- Joins lists of levels, level by level. -/
def joinLevels : List (List DataError) → List (List DataError) → List (List DataError)
  | [], bs => bs
  | as, [] => as
  | a :: as, b :: bs => (a ++ b) :: joinLevels as bs

mutual

/-- The faults inside of a list or mapping, by depth. -/
def levels : Draft → List (List DataError)
  | .list items => items.flatMap valueFault :: itemLevels items
  | .map pairs => (pairs.flatMap fun (k, v) => keyFault k ++ valueFault v) :: pairLevels pairs
  | .unmergeable => [[.malformed]]
  | .scalar _ | .unreadable _ | .endless => []

def itemLevels : List Draft → List (List DataError)
  | [] => []
  | x :: xs => joinLevels x.levels (itemLevels xs)

def pairLevels : List (Draft × Draft) → List (List DataError)
  | [] => []
  | (_, v) :: rest => joinLevels v.levels (pairLevels rest)

end

/-- The fault that is met first. -/
def firstFault? (d : Draft) : Option DataError := (d.valueFault ++ d.levels.flatten).head?

def key : Draft → Scalar
  | .scalar s => s
  | _ => .null

mutual

/-- The data of a draft without faults. -/
def data : Draft → Value
  | .scalar s => .scalar s
  | .list items => .list (itemsData items)
  | .map pairs => .map (Entries.ofList (pairsData pairs))
  | .unreadable _ | .endless | .unmergeable => .null

def itemsData : List Draft → List Value
  | [] => []
  | x :: xs => x.data :: itemsData xs

def pairsData : List (Draft × Draft) → List (Scalar × Value)
  | [] => []
  | (k, v) :: rest => (k.key, v.data) :: pairsData rest

end

end Draft

/-- Reads a YAML text of one document. -/
def parse (text : String) : Except DataError Value := do
  let draft := (← Node.ofText text.toList).draft
  match draft.firstFault? with
  | some e => throw e
  | none => return draft.data

end OpenApi.Yaml
