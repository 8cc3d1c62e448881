import OpenApi.Text.Percent
import OpenApi.Yaml.Token.Cursor

/-!
Scanning scalars: quoted, plain, and the block scalars that `|` and `>` start.
-/
namespace OpenApi.Yaml.Scan

def escapes : List (Char × Nat) :=
  [('0', 0x00), ('a', 0x07), ('b', 0x08), ('t', 0x09), ('\t', 0x09), ('n', 0x0a), ('v', 0x0b),
    ('f', 0x0c), ('r', 0x0d), ('e', 0x1b), (' ', 0x20), ('"', 0x22), ('\\', 0x5c), ('/', 0x2f),
    ('N', 0x85), ('_', 0xa0), ('L', 0x2028), ('P', 0x2029)]

def hexEscapeWidth? : Char → Option Nat
  | 'x' => some 2
  | 'u' => some 4
  | 'U' => some 8
  | _ => none

/-- Reads `width` hexadecimal digits. -/
def hexNumber (width : Nat) : Scan Nat := do
  let ds := (← get).rest.take width
  if ds.length < width then refuse
  match ds.mapM Percent.hexValue? with
  | none => refuse
  | some values =>
    skip width
    return values.foldl (16 * · + ·) 0

/-- Blank lines inside of a quoted scalar. -/
def quotedBreaks : Scan (List Char) :=
  loop [] fun acc => do
    if ← atDocumentMark then refuse
    let _ ← takeWhile fun c => c == ' ' || c == '\t'
    if isBreak (← peek 0) then return (acc ++ (← lineBreak), true)
    return (acc, false)

/-- What a backslash and the text behind it stand for. -/
def escape : Scan (List Char) := do
  let c ← peek 0
  match escapes.lookup c, hexEscapeWidth? c with
  | some n, _ =>
    skip 1
    return [Char.ofNat n]
  | none, some width =>
    skip 1
    let n ← hexNumber width
    if n.isValidChar then return [Char.ofNat n]
    throw .unrepresentable
  | none, none =>
    if isBreak c then
      let _ ← lineBreak
      quotedBreaks
    else refuse

/-- Text of a quoted scalar up to the next blank, break or closing quote. -/
def quotedText (double : Bool) : Scan (List Char) :=
  loop [] fun acc => do
    let text ← takeWhile fun c => !(c == '\'' || c == '"' || c == '\\' || isGap c)
    let acc := acc ++ text
    let c ← peek 0
    if !double && c == '\'' && (← peek 1) == '\'' then
      skip 2
      return (acc ++ ['\''], true)
    if (double && c == '\'') || (!double && (c == '"' || c == '\\')) then
      skip 1
      return (acc ++ [c], true)
    if double && c == '\\' then
      skip 1
      return (acc ++ (← escape), true)
    return (acc, false)

/-- Blanks or folded line breaks of a quoted scalar. -/
def quotedBlanks : Scan (List Char) := do
  let blanks ← takeWhile fun c => c == ' ' || c == '\t'
  let c ← peek 0
  if c.toNat == 0 then refuse
  if !isBreak c then return blanks
  let first ← lineBreak
  let more ← quotedBreaks
  if first != ['\n'] then return first ++ more
  if more.isEmpty then return [' ']
  return more

/-- A scalar between quotes. -/
def quotedScalar (quote : Char) : Scan (List Char) := do
  let double := quote == '"'
  skip 1
  let start ← quotedText double
  let text ← loop start fun acc => do
    if (← peek 0) == quote then return (acc, false)
    let blanks ← quotedBlanks
    return (acc ++ blanks ++ (← quotedText double), true)
  skip 1
  return text

/-- Blank lines between the lines of a plain scalar; none if a document mark follows. -/
def plainBreaks : Scan (Option (List Char)) :=
  loop (some []) fun acc => do
    let c ← peek 0
    if c == ' ' then
      skip 1
      return (acc, true)
    if !isBreak c then return (acc, false)
    let found ← lineBreak
    if ← atDocumentMark then return (none, false)
    return (acc.map (· ++ found), true)

/-- Blanks or folded line breaks of a plain scalar; empty where it ends. -/
def plainBlanks : Scan (List Char) := do
  let blanks ← takeWhile (· == ' ')
  if !isBreak (← peek 0) then return blanks
  let first ← lineBreak
  modify fun c => { c with keyAllowed := true }
  if ← atDocumentMark then return []
  match ← plainBreaks with
  | none => return []
  | some more =>
    if first != ['\n'] then return first ++ more
    if more.isEmpty then return [' ']
    return more

def isFlowMark (c : Char) : Bool := ",[]\x7b\x7d".toList.contains c

/-- The length of the part of a plain scalar that holds no gap. -/
def plainLength (inFlow : Bool) : List Char → Nat
  | [] => 0
  | c :: rest =>
    let next := rest.headD (Char.ofNat 0)
    if isGap c || (c == ':' && (isGap next || (inFlow && isFlowMark next)))
        || (inFlow && (isFlowMark c || c == '?')) then 0
    else plainLength inFlow rest + 1

/-- A scalar without quotes. It may go on over lines that are indented more than the block. -/
def plainScalar : Scan (List Char) := do
  let minColumn := (← get).indent + 1
  let (text, _) ← loop ([], []) fun (acc, blanks) => do
    if (← peek 0) == '#' then return ((acc, []), false)
    let c ← get
    let n := plainLength (c.flow > 0) c.rest
    if n == 0 then return ((acc, []), false)
    let piece := c.rest.take n
    modify fun c => { c with keyAllowed := false }
    skip n
    let acc := acc ++ blanks ++ piece
    let blanks ← plainBlanks
    let c ← get
    if blanks.isEmpty || (← peek 0) == '#' || (c.flow == 0 && c.column < minColumn) then
      return ((acc, []), false)
    return ((acc, blanks), true)
  return text

/-- What becomes of the line breaks at the end of a block scalar. -/
inductive Chomping where
  | strip
  | clip
  | keep

def chomping? (c : Char) : Option Chomping :=
  if c == '+' then some .keep else if c == '-' then some .strip else none

/-- A digit that sets the indentation of a block scalar. -/
def indentDigit : Scan (Option Nat) := do
  let c ← peek 0
  if !c.isDigit then return none
  if c == '0' then refuse
  skip 1
  return some (c.toNat - 0x30)

/-- The marks behind `|` or `>`, in either order. -/
def blockMarks : Scan (Chomping × Option Nat) := do
  let marks ← do
    match chomping? (← peek 0) with
    | some chomping =>
      skip 1
      pure (chomping, ← indentDigit)
    | none =>
      match ← indentDigit with
      | none => pure (.clip, none)
      | some n =>
        match chomping? (← peek 0) with
        | some chomping =>
          skip 1
          pure (chomping, some n)
        | none => pure (.clip, some n)
  let c ← peek 0
  if c == ' ' || isBreakOrEnd c then return marks
  refuse

/-- The rest of the line that starts a block scalar: blanks and a comment. -/
def restOfLine : Scan Unit := do
  let _ ← takeWhile (· == ' ')
  if (← peek 0) == '#' then
    let _ ← takeWhile fun c => !isBreakOrEnd c
  if !isBreakOrEnd (← peek 0) then refuse
  let _ ← lineBreak

/-- Blank lines in front of a block scalar, and the widest indentation among them and the first line
of text. -/
def blockIndentation : Scan (List Char × Int) :=
  loop ([], 0) fun (acc, widest) => do
    let c ← peek 0
    if c == ' ' then
      skip 1
      return ((acc, max widest (← get).column), true)
    if isBreak c then return ((acc ++ (← lineBreak), widest), true)
    return ((acc, widest), false)

/-- Skips spaces up to column `indent`. -/
def skipIndent (indent : Int) : Scan Unit := do
  let c ← get
  let spaces := (c.rest.takeWhile (· == ' ')).length
  skip (min spaces (indent - c.column).toNat)

/-- Blank lines between the lines of a block scalar. -/
def blockBreaks (indent : Int) : Scan (List Char) := do
  skipIndent indent
  loop [] fun acc => do
    if !isBreak (← peek 0) then return (acc, false)
    let found ← lineBreak
    skipIndent indent
    return (acc ++ found, true)

/-- What a block scalar has gathered: its text, the break behind its last line, and the blank lines
behind that. -/
structure BlockLines where
  text : List Char
  lastBreak : List Char
  breaks : List Char

def inBlock (indent : Int) : Scan Bool := do
  return (← get).column == indent && (← peek 0).toNat != 0

/-- The lines of a block scalar. In a folded one a single break between two lines that start with
text becomes a blank. -/
def blockLines (folded : Bool) (indent : Int) (breaks : List Char) : Scan BlockLines :=
  loop { text := [], lastBreak := [], breaks } fun acc => do
    if !(← inBlock indent) then return (acc, false)
    let textFirst := !((← peek 0) == ' ' || (← peek 0) == '\t')
    let line ← takeWhile fun c => !isBreakOrEnd c
    let text := acc.text ++ acc.breaks ++ line
    let lastBreak ← lineBreak
    let breaks ← blockBreaks indent
    if ← inBlock indent then
      let next ← peek 0
      if folded && lastBreak == ['\n'] && textFirst && !(next == ' ' || next == '\t') then
        return ({ text := if breaks.isEmpty then text ++ [' '] else text, lastBreak, breaks }, true)
      return ({ text := text ++ lastBreak, lastBreak, breaks }, true)
    return ({ text, lastBreak, breaks }, false)

def blockScalar (folded : Bool) : Scan (List Char) := do
  skip 1
  let (chomping, digit) ← blockMarks
  restOfLine
  let least := max ((← get).indent + 1) 1
  let (breaks, indent) ←
    match digit with
    | none => do
      let (breaks, widest) ← blockIndentation
      pure (breaks, max least widest)
    | some n => do
      let indent := least + n - 1
      pure (← blockBreaks indent, indent)
  let lines ← blockLines folded indent breaks
  match chomping with
  | .strip => return lines.text
  | .clip => return lines.text ++ lines.lastBreak
  | .keep => return lines.text ++ lines.lastBreak ++ lines.breaks

end OpenApi.Yaml.Scan
