import OpenApi.Fault
import OpenApi.Text.Search

/-!
Access to loosely typed data. Documents are not checked against a grammar before they are used, so
each access says which kinds of value it takes and meets a fault at every other.
-/
namespace OpenApi

/-- A text that has to be there. -/
def written (text : Option String) : Checked String :=
  match text with
  | some s => .ok s
  | none => .error .wrongKind

/-- The text of an integer. -/
def writtenInt (n : Int) : Checked String := written (intText? n)

/-- The form of a scalar inside of a list or mapping. -/
def Scalar.inner (s : Scalar) : Checked String := written s.inner?

/-- The form of a scalar that stands alone. -/
def Scalar.text (s : Scalar) : Checked String := written s.text?

namespace Value

/-- The form of a value inside of a list or mapping. -/
def inner (v : Value) : Checked String := written v.inner?

/-- The form of a value that stands alone. -/
def text (v : Value) : Checked String := written v.text?

/-- The entries of a mapping. -/
def entries : Value → Checked Entries
  | .map es => .ok es
  | _ => .error .wrongKind

/-- The value under a key of a mapping, or `default`. -/
def getD (v : Value) (key : String) (default : Value) : Checked Value := do
  return ((← v.entries).get? key).getD default

/-- The value under a key of a mapping, or null. -/
def get (v : Value) (key : String) : Checked Value := v.getD key .null

/-- Is `key` a key of a mapping, an item of a list, or a part of a text? -/
def has (v : Value) (key : String) : Checked Bool :=
  match v with
  | .map es => .ok (Entries.has es key)
  | .list items => .ok (items.any fun x => x.same (.str key))
  | .str s => .ok (Text.contains s key)
  | _ => .error .wrongKind

/-- The items of a list, the keys of a mapping, or the characters of a text. -/
def elements : Value → Checked (List Value)
  | .list items => .ok items
  | .map es => .ok (es.map fun (k, _) => .scalar k)
  | .str s => .ok (s.toList.map fun c => .str c.toString)
  | _ => .error .wrongKind

def length (v : Value) : Checked Nat := return (← v.elements).length

/-- The item at an index; an index below zero counts from the end. -/
def nth (items : List Value) (i : Int) : Checked Value :=
  let i := if i < 0 then i + items.length else i
  if i < 0 then .error .wrongKind
  else match items[i.toNat]? with
    | some x => .ok x
    | none => .error .wrongKind

/-- The value under a key of a mapping or at an index of a list; it must be there. -/
def item (v key : Value) : Checked Value :=
  match v, key with
  | .map es, .scalar k =>
    match Entries.find? es k with
    | some x => .ok x
    | none => .error .wrongKind
  | .list items, .int i => nth items i
  | .list items, .bool b => nth items (if b then 1 else 0)
  | _, _ => .error .wrongKind

/-- A key and a value out of anything that has two elements. -/
def asPair (v : Value) : Checked (Scalar × Value) := do
  match ← v.elements with
  | [.scalar k, x] => .ok (k, x)
  | _ => .error .wrongKind

/-- The entries of a mapping, also when it is given as a list of pairs. -/
def asEntries : Value → Checked Entries
  | .map es => .ok es
  | v => do return Entries.ofList (← (← v.elements).mapM asPair)

/-- Do numbers, texts, dates and lists of such come in this order? -/
def scalarBefore : Scalar → Scalar → Checked Bool
  | .str a, .str b => .ok (a < b)
  | .date a, .date b => .ok (a.text < b.text)
  | a, b =>
    match a.magnitude?, b.magnitude? with
    | some x, some y => .ok (x.lt y)
    | _, _ => .error .wrongKind

mutual

/-- Strict order of values; lists are ordered by the first items that differ. -/
def before : Value → Value → Checked Bool
  | .scalar a, .scalar b => scalarBefore a b
  | .list xs, .list ys => beforeItems xs ys
  | _, _ => .error .wrongKind

def beforeItems : List Value → List Value → Checked Bool
  | [], ys => .ok !ys.isEmpty
  | _ :: _, [] => .ok false
  | x :: xs, y :: ys => if x.same y then beforeItems xs ys else x.before y

end

end Value
end OpenApi
