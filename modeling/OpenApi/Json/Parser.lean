import OpenApi.Json.Error
import OpenApi.Text.Digit
import OpenApi.Text.Percent
import OpenApi.Value.Basic

/-!
Reading JSON. Integers are unbounded, numbers with a fraction or exponent are binary64, `NaN` and
`Infinity` are numbers too, and a key given twice keeps its first place and its last value. Each reader
returns what it read with the text that follows.
-/
namespace OpenApi.Json

def stopAt {α : Type} (reason : Reason) (rest : List Char) : Except Stop α :=
  .error { reason, remaining := rest.length }

def isBlank (c : Char) : Bool := c == ' ' || c == '\t' || c == '\n' || c == '\r'

def skipBlanks (cs : List Char) : List Char := cs.dropWhile isBlank

def digitsValue (ds : List Char) : Nat := ds.foldl (fun n d => 10 * n + (d.toNat - 0x30)) 0

/-- The whole digits of a number, without a leading zero unless it is the only digit. -/
def wholeDigits (cs : List Char) : Option (List Char × List Char) :=
  match cs with
  | '0' :: rest => some (['0'], rest)
  | c :: _ => if c.isDigit then some (cs.span Char.isDigit) else none
  | [] => none

/-- The digits behind a point; empty when there is no fraction. -/
def fractionDigits (cs : List Char) : List Char × List Char :=
  match cs with
  | '.' :: rest =>
    let (ds, rest) := rest.span Char.isDigit
    if ds.isEmpty then ([], cs) else (ds, rest)
  | _ => ([], cs)

def exponentSign (cs : List Char) : Bool × List Char :=
  match cs with
  | '+' :: rest => (false, rest)
  | '-' :: rest => (true, rest)
  | _ => (false, cs)

/-- The exponent of a number, if it has one. -/
def exponentPart (cs : List Char) : Option Int × List Char :=
  match cs with
  | c :: rest =>
    if c == 'e' || c == 'E' then
      let (negative, digits) := exponentSign rest
      let (ds, rest) := digits.span Char.isDigit
      if ds.isEmpty then (none, cs)
      else (some (if negative then -(digitsValue ds : Int) else digitsValue ds), rest)
    else (none, cs)
  | [] => (none, cs)

/-- A number that starts at `start`, read behind its sign. -/
def number (start : List Char) (negative : Bool) (cs : List Char) : Except Stop (Value × List Char) :=
  match wholeDigits cs with
  | none => stopAt .value start
  | some (whole, rest) =>
    let (fraction, rest) := fractionDigits rest
    let (exponent, rest) := exponentPart rest
    if fraction.isEmpty && exponent.isNone then
      if whole.length > Text.maxDigits then stopAt .tooManyDigits start
      else
        let n : Int := digitsValue whole
        .ok (.int (if negative then -n else n), rest)
    else
      let digits := digitsValue (whole ++ fraction)
      .ok (.float (.ofDecimal negative digits (exponent.getD 0 - fraction.length)), rest)

def hexValue? (ds : List Char) : Option Nat :=
  ds.foldl (fun acc d => acc.bind fun n => (Percent.hexValue? d).map (16 * n + ·)) (some 0)

/-- What stands behind a backslash, other than a code unit. -/
def simpleEscape? : Char → Option Char
  | '"' => some '"'
  | '\\' => some '\\'
  | '/' => some '/'
  | 'b' => some (Char.ofNat 0x08)
  | 'f' => some (Char.ofNat 0x0c)
  | 'n' => some '\n'
  | 'r' => some '\r'
  | 't' => some '\t'
  | _ => none

def isHighSurrogate (n : Nat) : Bool := 0xd800 ≤ n && n ≤ 0xdbff

def isLowSurrogate (n : Nat) : Bool := 0xdc00 ≤ n && n ≤ 0xdfff

/-- The code points of a string up to its closing quote; a character written as a surrogate pair
counts as two. `opening` is the text from the opening quote on, where an unterminated string is
reported. -/
def stringUnits (opening : List Char) : List Char → Except Stop (List Nat × List Char)
  | [] => stopAt .unterminated opening
  | '"' :: rest => .ok ([], rest)
  | '\\' :: 'u' :: a :: b :: c :: d :: next :: rest =>
    match hexValue? [a, b, c, d] with
    | some n => do
      let (ns, rest) ← stringUnits opening (next :: rest)
      .ok (n :: ns, rest)
    | none => stopAt .unicodeEscape ('u' :: a :: b :: c :: d :: next :: rest)
  | '\\' :: 'u' :: rest => stopAt .unicodeEscape ('u' :: rest)
  | '\\' :: c :: rest =>
    match simpleEscape? c with
    | some e => do
      let (ns, rest) ← stringUnits opening rest
      .ok (e.toNat :: ns, rest)
    | none => stopAt .escape ('\\' :: c :: rest)
  | ['\\'] => stopAt .unterminated opening
  | c :: rest =>
    if c.toNat < 0x20 then stopAt .controlCharacter (c :: rest)
    else do
      let (ns, rest) ← stringUnits opening rest
      .ok (c.toNat :: ns, rest)

/-- Joins surrogate pairs; half of a pair becomes U+FFFD. -/
def joinUnits : List Nat → List Char
  | [] => []
  | [n] => if isHighSurrogate n || isLowSurrogate n then [Char.ofNat 0xfffd] else [Char.ofNat n]
  | n :: m :: rest =>
    if isHighSurrogate n && isLowSurrogate m then
      Char.ofNat (0x10000 + (n - 0xd800) * 0x400 + (m - 0xdc00)) :: joinUnits rest
    else if isHighSurrogate n || isLowSurrogate n then Char.ofNat 0xfffd :: joinUnits (m :: rest)
    else Char.ofNat n :: joinUnits (m :: rest)

def stringBody (opening rest : List Char) : Except Stop (String × List Char) := do
  let (ns, rest) ← stringUnits opening rest
  .ok (String.ofList (joinUnits ns), rest)

/-- The constants, each with its spelling. -/
def constants : List (List Char × Value) :=
  [("null".toList, .null), ("true".toList, .bool true), ("false".toList, .bool false),
    ("NaN".toList, .float .nan), ("Infinity".toList, .float (.infinite false)),
    ("-Infinity".toList, .float (.infinite true))]

/-- A constant or a number. -/
def literal (cs : List Char) : Except Stop (Value × List Char) :=
  match constants.find? fun (word, _) => word.isPrefixOf cs with
  | some (word, v) => .ok (v, cs.drop word.length)
  | none =>
    match cs with
    | '-' :: rest => number cs true rest
    | _ => number cs false cs

mutual

/-- A value at the start of `cs`. Each character needs at most two units of fuel. -/
def value (fuel : Nat) (cs : List Char) : Except Stop (Value × List Char) :=
  match fuel with
  | 0 => stopAt .value cs
  | fuel + 1 =>
    match cs with
    | '"' :: rest => do
      let (s, rest) ← stringBody cs rest
      .ok (.str s, rest)
    | '{' :: rest =>
      match skipBlanks rest with
      | '}' :: rest => .ok (.map [], rest)
      | rest => do
        let (pairs, rest) ← members fuel rest
        .ok (.map (Entries.ofList pairs), rest)
    | '[' :: rest =>
      match skipBlanks rest with
      | ']' :: rest => .ok (.list [], rest)
      | rest => do
        let (xs, rest) ← items fuel rest
        .ok (.list xs, rest)
    | _ => literal cs

/-- The items of a list that has at least one more, with the closing bracket. -/
def items (fuel : Nat) (cs : List Char) : Except Stop (List Value × List Char) :=
  match fuel with
  | 0 => stopAt .value cs
  | fuel + 1 => do
    let (x, rest) ← value fuel cs
    match skipBlanks rest with
    | ']' :: rest => .ok ([x], rest)
    | ',' :: rest => do
      let (xs, rest) ← items fuel (skipBlanks rest)
      .ok (x :: xs, rest)
    | rest => stopAt .comma rest

/-- The members of an object that has at least one more, with the closing brace. -/
def members (fuel : Nat) (cs : List Char) : Except Stop (List (Scalar × Value) × List Char) :=
  match fuel with
  | 0 => stopAt .value cs
  | fuel + 1 =>
    match cs with
    | '"' :: rest => do
      let (key, rest) ← stringBody cs rest
      match skipBlanks rest with
      | ':' :: rest => do
        let (v, rest) ← value fuel (skipBlanks rest)
        let entry := (Scalar.str key, v)
        match skipBlanks rest with
        | '}' :: rest => .ok ([entry], rest)
        | ',' :: rest => do
          let (more, rest) ← members fuel (skipBlanks rest)
          .ok (entry :: more, rest)
        | rest => stopAt .comma rest
      | rest => stopAt .colon rest
    | _ => stopAt .property cs

end

/-- The value that makes up the whole of `cs`, blanks aside. -/
def document (cs : List Char) : Except Stop Value :=
  match cs with
  | '\ufeff' :: _ => stopAt .byteOrderMark cs
  | _ => do
    let (v, rest) ← value (2 * cs.length + 2) (skipBlanks cs)
    match skipBlanks rest with
    | [] => .ok v
    | rest => stopAt .extraData rest

def parse (text : String) : Except Error Value :=
  (document text.toList).mapError (·.locate text.toList)

end OpenApi.Json
