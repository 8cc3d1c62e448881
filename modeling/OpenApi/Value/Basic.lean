import OpenApi.Double.Decimal

/-!
Data as it stands in a document: scalars, lists, and mappings that keep the order of their entries.
-/
namespace OpenApi

structure Date where
  year : Nat
  month : Nat
  day : Nat
deriving DecidableEq, Repr, Inhabited

inductive Scalar where
  | null
  | bool (b : Bool)
  | int (n : Int)
  | float (x : Double)
  | str (s : String)
  | date (d : Date)
deriving DecidableEq, Repr, Inhabited

inductive Value where
  | scalar (s : Scalar)
  | list (items : List Value)
  | map (entries : List (Scalar × Value))
deriving Repr, Inhabited

abbrev Entries := List (Scalar × Value)

namespace Value

@[match_pattern] abbrev null : Value := .scalar .null
@[match_pattern] abbrev bool (b : Bool) : Value := .scalar (.bool b)
@[match_pattern] abbrev int (n : Int) : Value := .scalar (.int n)
@[match_pattern] abbrev float (x : Double) : Value := .scalar (.float x)
@[match_pattern] abbrev str (s : String) : Value := .scalar (.str s)
@[match_pattern] abbrev date (d : Date) : Value := .scalar (.date d)

/-- The mapping with texts as keys. -/
def record (fields : List (String × Value)) : Value :=
  .map (fields.map fun (k, v) => (.str k, v))

def isNull : Value → Bool
  | .null => true
  | _ => false

def str? : Value → Option String
  | .str s => some s
  | _ => none

def scalar? : Value → Option Scalar
  | .scalar s => some s
  | _ => none

def isMap : Value → Bool
  | .map _ => true
  | _ => false

end Value

/-- Place on the number line; truth values count as 0 and 1. -/
def Scalar.magnitude? : Scalar → Option Magnitude
  | .bool b => some (.ofInt (if b then 1 else 0))
  | .int n => some (.ofInt n)
  | .float x => some (.ofDouble x)
  | _ => none

/-- Sameness as values: numbers are compared by magnitude, whatever their kind, and what is not a
number is the same as itself. -/
def Scalar.same : Scalar → Scalar → Bool
  | .str a, .str b => a == b
  | .float .nan, .float .nan => true
  | .null, .null => true
  | .date a, .date b => a == b
  | a, b =>
    match a.magnitude?, b.magnitude? with
    | some x, some y => x.eq y
    | _, _ => false

namespace Entries

/-- The value under a key. -/
def find? (entries : Entries) (key : Scalar) : Option Value :=
  match entries with
  | [] => none
  | (k, v) :: rest => if k.same key then some v else find? rest key

def get? (entries : Entries) (key : String) : Option Value := entries.find? (.str key)

def has (entries : Entries) (key : String) : Bool := (entries.get? key).isSome

/-- Sets a key. A key that is there keeps its place. -/
def insert (entries : Entries) (key : Scalar) (value : Value) : Entries :=
  match entries with
  | [] => [(key, value)]
  | (k, v) :: rest => if k.same key then (k, value) :: rest else (k, v) :: insert rest key value

/-- Entries in order of first occurrence of their keys, each with its last value. -/
def ofList (pairs : List (Scalar × Value)) : Entries :=
  pairs.foldl (fun acc (k, v) => insert acc k v) []

def without (entries : Entries) (keys : List String) : Entries :=
  entries.filter fun (k, _) => !keys.any fun key => k.same (.str key)

end Entries

namespace Value

mutual

/-- Sameness as values: mappings are the same whatever the order of their entries. -/
def same : Value → Value → Bool
  | .scalar a, .scalar b => a.same b
  | .list xs, .list ys => sameItems xs ys
  | .map xs, .map ys => xs.length == ys.length && sameEntries xs ys
  | _, _ => false

def sameItems : List Value → List Value → Bool
  | [], [] => true
  | x :: xs, y :: ys => x.same y && sameItems xs ys
  | _, _ => false

def sameEntries : List (Scalar × Value) → Entries → Bool
  | [], _ => true
  | (k, v) :: rest, ys =>
    (match ys.find? k with
      | some w => v.same w
      | none => false) && sameEntries rest ys

end

/-- Equality, which differs from sameness in that a value that is not a number equals nothing. -/
def equal : Value → Value → Bool
  | .float .nan, _ => false
  | a, b => a.same b

mutual

/-- Number of values in the tree. -/
def size : Value → Nat
  | .scalar _ => 1
  | .list items => sizeItems items + 1
  | .map entries => sizeEntries entries + 1

def sizeItems : List Value → Nat
  | [] => 0
  | x :: xs => x.size + sizeItems xs

def sizeEntries : List (Scalar × Value) → Nat
  | [] => 0
  | (_, v) :: rest => v.size + sizeEntries rest

end

/-- Everything holds but null, false, zero, and what is empty. -/
def truthy : Value → Bool
  | .scalar .null => false
  | .scalar (.bool b) => b
  | .scalar (.int n) => n != 0
  | .scalar (.float (.finite _ m _)) => m != 0
  | .scalar (.float _) => true
  | .scalar (.str s) => !s.isEmpty
  | .scalar (.date _) => true
  | .list items => !items.isEmpty
  | .map entries => !entries.isEmpty

/-- The value, or the empty mapping in place of one that does not hold. -/
def orEmpty (v : Value) : Value := if v.truthy then v else .map []

end Value
end OpenApi
