import OpenApi.Yaml.Token.Scalar

/-!
From YAML text to tokens. A key is recognised when its colon is reached, and its token is put in where
the key started; it must start and end on one line, within 1024 characters.
-/
namespace OpenApi.Yaml.Scan

def placeHere : Scan (Option KeyPlace) := do
  let c ← get
  return c.keyPlaces.lookup c.flow

def clearPlace : Scan Unit :=
  modify fun c => { c with keyPlaces := c.keyPlaces.filter fun (level, _) => level != c.flow }

/-- Gives up the place of a key at the present depth. -/
def dropPlace : Scan Unit := do
  match ← placeHere with
  | some place => if place.required then refuse else clearPlace
  | none => return

/-- Gives up places that are too far back for their colon to come. -/
def dropStalePlaces : Scan Unit := do
  let c ← get
  let stale (place : KeyPlace) : Bool :=
    place.line != c.line || c.offset - place.offset > 1024
  if c.keyPlaces.any fun (_, place) => stale place && place.required then refuse
  set { c with keyPlaces := c.keyPlaces.filter fun (_, place) => !stale place }

/-- Notes that a key may start here. -/
def notePlace : Scan Unit := do
  if (← get).keyAllowed then
    dropPlace
    modify fun c =>
      let place : KeyPlace :=
        { token := c.taken + c.tokens.length, required := c.flow == 0 && c.indent == c.column
          offset := c.offset, line := c.line, column := c.column }
      { c with keyPlaces := (c.flow, place) :: c.keyPlaces }

/-- Puts a token in where a key started. -/
def pushAt (place : KeyPlace) (t : Token) : Scan Unit :=
  modify fun c => { c with tokens := c.tokens.insertIdx (place.token - c.taken) t }

def allowKey (allowed : Bool) : Scan Unit := modify fun c => { c with keyAllowed := allowed }

/-- Closes the blocks that are indented more than `column`. -/
def closeBlocks (column : Int) : List Int → Cursor → Cursor
  | [], c => c
  | outer :: more, c =>
    if c.flow == 0 && c.indent > column then
      closeBlocks column more
        { c with indent := outer, indents := more, tokens := c.tokens ++ [.blockEnd] }
    else c

def unwind (column : Int) : Scan Unit := modify fun c => closeBlocks column c.indents c

/-- Opens a block at `column` unless one is open there, and tells whether it did. -/
def openBlock (column : Int) : Scan Bool := do
  let c ← get
  if c.indent < column then
    set { c with indents := c.indent :: c.indents, indent := column }
    return true
  return false

/-- Skips blanks, comments and line breaks. -/
def skipGaps : Scan Unit := do
  if (← get).offset == 0 && (← peek 0).toNat == 0xfeff then skip 1
  loop () fun _ => do
    let _ ← takeWhile (· == ' ')
    if (← peek 0) == '#' then
      let _ ← takeWhile fun c => !isBreakOrEnd c
    if (← lineBreak).isEmpty then return ((), false)
    if (← get).flow == 0 then allowKey true
    return ((), true)

def inFlow : Scan Bool := return (← get).flow > 0

/-- A single character that is a token. -/
def mark (t : Token) : Scan Unit := do
  skip 1
  push t

def openFlow (t : Token) : Scan Unit := do
  notePlace
  modify fun c => { c with flow := c.flow + 1 }
  allowKey true
  mark t

def closeFlow (t : Token) : Scan Unit := do
  dropPlace
  modify fun c => { c with flow := c.flow - 1 }
  allowKey false
  mark t

def flowEntry : Scan Unit := do
  allowKey true
  dropPlace
  mark .flowEntry

def blockEntry : Scan Unit := do
  if !(← inFlow) then
    if !(← get).keyAllowed then refuse
    if ← openBlock (← get).column then push .blockSequence
  allowKey true
  dropPlace
  mark .blockEntry

def explicitKey : Scan Unit := do
  if !(← inFlow) then
    if !(← get).keyAllowed then refuse
    if ← openBlock (← get).column then push .blockMapping
  allowKey !(← inFlow)
  dropPlace
  mark .key

/-- The colon. If a key may have started at this depth, it did. -/
def keyValue : Scan Unit := do
  match ← placeHere with
  | some place =>
    clearPlace
    pushAt place .key
    if !(← inFlow) then
      if ← openBlock place.column then pushAt place .blockMapping
    allowKey false
  | none =>
    if !(← inFlow) then
      if !(← get).keyAllowed then refuse
      if ← openBlock (← get).column then push .blockMapping
    allowKey !(← inFlow)
    dropPlace
  mark .value

def isNameChar (c : Char) : Bool := c.isAlphanum || c == '-' || c == '_'

/-- The name of an anchor or alias. -/
def anchorName : Scan String := do
  skip 1
  let name ← takeWhile isNameChar
  let c ← peek 0
  if name.isEmpty || !(isGap c || "?:,]\x7d%@\x60".toList.contains c) then refuse
  return String.ofList name

def named (t : String → Token) : Scan Unit := do
  notePlace
  allowKey false
  push (t (← anchorName))

def quoted (quote : Char) : Scan Unit := do
  notePlace
  allowKey false
  push (.scalar (String.ofList (← quotedScalar quote)) false)

def block (folded : Bool) : Scan Unit := do
  allowKey true
  dropPlace
  push (.scalar (String.ofList (← blockScalar folded)) false)

def startsPlain : Scan Bool := do
  let c ← peek 0
  let special := isGap c || "-?:,[]\x7b\x7d#&*!|>'\"%@\x60".toList.contains c
  if !special then return true
  if isGap (← peek 1) then return false
  return c == '-' || (!(← inFlow) && (c == '?' || c == ':'))

def plain : Scan Unit := do
  notePlace
  allowKey false
  push (.scalar (String.ofList (← plainScalar)) true)

def documentMark (t : Token) : Scan Unit := do
  unwind (-1)
  dropPlace
  allowKey false
  skip 3
  push t

/-- Reads the next token, with the tokens that indentation adds; false at the end of the text. -/
def next : Scan Bool := do
  skipGaps
  dropStalePlaces
  unwind (← get).column
  let c ← peek 0
  let gapNext := isGap (← peek 1)
  let flow ← inFlow
  let atStart := (← get).column == 0
  if c.toNat == 0 then
    unwind (-1)
    dropPlace
    return false
  if c == '%' && atStart then refuse
  if c == '-' && atStart && (← atMark '-') then documentMark .documentStart
  else if c == '.' && atStart && (← atMark '.') then documentMark .documentEnd
  else if c == '[' then openFlow .flowSequence
  else if c == '{' then openFlow .flowMapping
  else if c == ']' then closeFlow .flowSequenceEnd
  else if c == '}' then closeFlow .flowMappingEnd
  else if c == ',' then flowEntry
  else if c == '-' && gapNext then blockEntry
  else if c == '?' && (flow || gapNext) then explicitKey
  else if c == ':' && (flow || gapNext) then keyValue
  else if c == '*' then named .alias
  else if c == '&' then named .anchor
  else if c == '|' && !flow then block false
  else if c == '>' && !flow then block true
  else if c == '\'' || c == '"' then quoted c
  else if ← startsPlain then plain
  else refuse
  return true

/-- Is the next token not yet known? It is not while a key may turn out to start at it. -/
def isOpen : Scan Bool := do
  let c ← get
  return c.tokens.isEmpty || c.keyPlaces.any fun (_, place) => place.token == c.taken

end OpenApi.Yaml.Scan
