import OpenApi.Yaml.Token.Scan

/-!
The tree that a YAML text describes. Tokens are read only as far as they are needed, so of several
faults in a text the first is found. An alias is replaced by the node that its anchor names.
-/
namespace OpenApi.Yaml

inductive Node where
  | scalar (text : String) (plain : Bool)
  | sequence (items : List Node)
  | mapping (pairs : List (Node × Node))
  /-- An alias inside of the node that it names. -/
  | endless
deriving Inhabited

/-- The node that stands where none is written. -/
def Node.empty : Node := .scalar "" true

/-- Where the reading stands, and the anchors so far; an anchor without a node is still being read.
`ended` says that no more tokens come. -/
structure Outline where
  cursor : Cursor
  ended : Bool := false
  anchors : List (String × Option Node) := []

abbrev Compose := StateT Outline (Except DataError)

namespace Compose

/-- Ends the reading at something that is not YAML. -/
def refuse {α : Type} : Compose α := throw .malformed

/-- Scans on. -/
def scan {α : Type} (x : Scan α) : Compose α := do
  let o ← get
  let (a, cursor) ← x.run o.cursor
  set { o with cursor }
  return a

/-- Scans until the next token is known. -/
def settle : Nat → Compose Unit
  | 0 => refuse
  | fuel + 1 => do
    if (← get).ended then return
    if !(← get).cursor.tokens.isEmpty then scan Scan.dropStalePlaces
    if ← scan Scan.isOpen then
      let more ← scan Scan.next
      modify fun o => { o with ended := !more }
      settle fuel

/-- The next token; none at the end. -/
def peek : Compose (Option Token) := do
  settle (← get).cursor.limit
  return (← get).cursor.tokens.head?

def drop : Compose Unit :=
  modify fun o => { o with
    cursor := { o.cursor with tokens := o.cursor.tokens.tail, taken := o.cursor.taken + 1 } }

def expect (t : Token) : Compose Unit := do
  if (← peek) == some t then drop else refuse

/-- Does one of `ts` come next? -/
def atOneOf (ts : List Token) : Compose Bool := do
  match ← peek with
  | some t => return ts.contains t
  | none => return false

/-- Starts the node of an anchor, which must be new. -/
def openAnchor (name : String) : Compose Unit := do
  if ((← get).anchors.lookup name).isSome then refuse
  modify fun o => { o with anchors := (name, none) :: o.anchors }

def bindAnchor (name : String) (node : Node) : Compose Unit :=
  modify fun o => { o with anchors := (name, some node) :: o.anchors }

def aliased (name : String) : Compose Node := do
  match (← get).anchors.lookup name with
  | some (some node) => return node
  | some none => return .endless
  | none => refuse

mutual

/-- A node. `block` allows block collections, `indentless` also a sequence at the indentation of the
mapping around it. -/
def node (fuel : Nat) (block indentless : Bool) : Compose Node :=
  match fuel with
  | 0 => refuse
  | fuel + 1 => do
    match ← peek with
    | some (.alias name) =>
      drop
      aliased name
    | some (.anchor name) =>
      drop
      let _ ← peek
      openAnchor name
      let found ← content fuel block indentless true
      bindAnchor name found
      return found
    | _ => content fuel block indentless false

/-- A node behind its anchor, if it has one. -/
def content (fuel : Nat) (block indentless anchored : Bool) : Compose Node :=
  match fuel with
  | 0 => refuse
  | fuel + 1 => do
    match ← peek with
    | some (.scalar text plain) =>
      drop
      return .scalar text plain
    | some .flowSequence =>
      drop
      return .sequence (← flowItems fuel true)
    | some .flowMapping =>
      drop
      return .mapping (← flowPairs fuel true)
    | some .blockEntry =>
      if indentless then return .sequence (← indentlessItems fuel)
      if anchored then return .empty
      refuse
    | some .blockSequence =>
      if block then
        drop
        return .sequence (← blockItems fuel)
      if anchored then return .empty
      refuse
    | some .blockMapping =>
      if block then
        drop
        return .mapping (← blockPairs fuel)
      if anchored then return .empty
      refuse
    | _ => if anchored then return .empty else refuse

/-- The node here, unless one of `ends` shows that there is none. -/
def nodeUnless (fuel : Nat) (ends : List Token) (block indentless : Bool) : Compose Node :=
  match fuel with
  | 0 => refuse
  | fuel + 1 => do
    if ← atOneOf ends then return .empty
    node fuel block indentless

def blockItems (fuel : Nat) : Compose (List Node) :=
  match fuel with
  | 0 => refuse
  | fuel + 1 => do
    if (← peek) == some .blockEntry then
      drop
      let item ← nodeUnless fuel [.blockEntry, .blockEnd] true false
      return item :: (← blockItems fuel)
    expect .blockEnd
    return []

def indentlessItems (fuel : Nat) : Compose (List Node) :=
  match fuel with
  | 0 => refuse
  | fuel + 1 => do
    if (← peek) == some .blockEntry then
      drop
      let item ← nodeUnless fuel [.blockEntry, .key, .value, .blockEnd] true false
      return item :: (← indentlessItems fuel)
    return []

def blockPairs (fuel : Nat) : Compose (List (Node × Node)) :=
  match fuel with
  | 0 => refuse
  | fuel + 1 => do
    if (← peek) == some .key then
      drop
      let key ← nodeUnless fuel [.key, .value, .blockEnd] true true
      let value ← valuePart fuel [.key, .value, .blockEnd] true
      return (key, value) :: (← blockPairs fuel)
    expect .blockEnd
    return []

/-- The value behind a colon; empty if there is no colon. -/
def valuePart (fuel : Nat) (ends : List Token) (block : Bool) : Compose Node :=
  match fuel with
  | 0 => refuse
  | fuel + 1 => do
    if (← peek) == some .value then
      drop
      nodeUnless fuel ends block block
    else return .empty

def flowItems (fuel : Nat) (first : Bool) : Compose (List Node) :=
  match fuel with
  | 0 => refuse
  | fuel + 1 => do
    if (← peek) == some .flowSequenceEnd then
      drop
      return []
    if !first then expect .flowEntry
    if (← peek) == some .key then
      drop
      let key ← nodeUnless fuel [.value, .flowEntry, .flowSequenceEnd] false false
      let value ← valuePart fuel [.flowEntry, .flowSequenceEnd] false
      return .mapping [(key, value)] :: (← flowItems fuel false)
    if (← peek) == some .flowSequenceEnd then
      drop
      return []
    let item ← node fuel false false
    return item :: (← flowItems fuel false)

def flowPairs (fuel : Nat) (first : Bool) : Compose (List (Node × Node)) :=
  match fuel with
  | 0 => refuse
  | fuel + 1 => do
    if (← peek) == some .flowMappingEnd then
      drop
      return []
    if !first then expect .flowEntry
    if (← peek) == some .key then
      drop
      let key ← nodeUnless fuel [.value, .flowEntry, .flowMappingEnd] false false
      let value ← valuePart fuel [.flowEntry, .flowMappingEnd] false
      return (key, value) :: (← flowPairs fuel false)
    if (← peek) == some .flowMappingEnd then
      drop
      return []
    let key ← node fuel false false
    return (key, .empty) :: (← flowPairs fuel false)

end

/-- Marks that end a document. -/
def documentEnds : Nat → Compose Unit
  | 0 => refuse
  | fuel + 1 => do
    if (← peek) == some .documentEnd then
      drop
      documentEnds fuel

/-- One document, alone in its stream; an empty stream is an empty node. -/
def document (fuel : Nat) : Compose Node := do
  let found ←
    match ← peek with
    | none => return .empty
    | some .documentStart =>
      drop
      if (← peek).isNone then pure .empty
      else nodeUnless fuel [.documentStart, .documentEnd] true false
    | some _ => node fuel true false
  documentEnds fuel
  if (← peek).isSome then refuse
  return found

end Compose

/-- The tree of a text. Each character gives at most four tokens, and each token takes at most four
steps. -/
def Node.ofText (text : List Char) : Except DataError Node :=
  if text.all isAllowed then
    (Compose.document (16 * text.length + 32)).run' { cursor := .ofText text }
  else .error .malformed

end OpenApi.Yaml
