import OpenApi.Name.Identifier
import OpenApi.Name.Reserved
import OpenApi.Value.Access

/-!
Tables of names. Every name is registered once, in a scope and a namespace, where no two owners get
the same identifier.
-/
namespace OpenApi

/-- What kind of thing a name stands for. -/
inductive Scope where
  | schemaType
  | operation
  | parameter
  | cacheKey
  | hook
deriving DecidableEq, Repr

def Scope.text : Scope → String
  | .schemaType => "schema-type"
  | .operation => "operation-function"
  | .parameter => "parameter-variable"
  | .cacheKey => "cache-key-function"
  | .hook => "hook-function"

def Scope.all : List Scope := [.schemaType, .operation, .parameter, .cacheKey, .hook]

def Scope.ofText? (s : String) : Option Scope := Scope.all.find? (·.text == s)

/-- A registered name. `source` tells owners apart that ask for the same raw name, and `collision`
counts the candidates that were tried. -/
structure NameEntry where
  raw : String
  identifier : String
  scope : Scope
  space : String := ""
  collision : Nat := 1
  source : String := ""
deriving DecidableEq, Repr

/-- What an owner is found by: its source, or else its raw name. -/
def ownerKey (raw source : String) : String := if source.isEmpty then raw else source

def NameEntry.key (e : NameEntry) : String := ownerKey e.raw e.source

def NameEntry.inScope (e : NameEntry) (scope : Scope) (space : String) : Bool :=
  e.scope == scope && e.space == space

/-- Registered names, in the order of registration. -/
abbrev NameTable := List NameEntry

namespace NameTable

def find? (table : NameTable) (scope : Scope) (space key : String) : Option NameEntry :=
  List.find? (fun e => e.inScope scope space && e.key == key) table

/-- What is found by a key; only texts are keys of names. -/
def entry? (table : NameTable) (scope : Scope) (key : Scalar) (space : String) : Option NameEntry :=
  match key with
  | .str s => table.find? scope space s
  | _ => none

/-- The identifier of an owner. -/
def get (table : NameTable) (scope : Scope) (key : Scalar) (space : String) : Checked String := do
  match table.entry? scope key space with
  | some e => return e.identifier
  | none => throw (.noName scope.text (← key.inner))

/-- The names of a scope, in one namespace or in all of them. -/
def inScope (table : NameTable) (scope : Scope) (space : Option String) : NameTable :=
  table.filter fun e => e.scope == scope && space.all (· == e.space)

/-- The form in which identifiers must differ. -/
def foldCase (naming : Naming) (identifier : String) : String :=
  if naming.caseInsensitive then Text.lower identifier else identifier

/-- The identifiers that a scope and namespace hold, as they must differ. -/
def taken (naming : Naming) (table : NameTable) (scope : Scope) (space : String) : List String :=
  (table.filter (·.inScope scope space)).map fun e => foldCase naming e.identifier

/-- The `n`-th name to try for a base. -/
def candidate (naming : Naming) (base : String) (n : Nat) : String :=
  if n ≤ 1 then base else naming.unreserve (base ++ naming.separator ++ Nat.repr n)

/-- The least number from one on whose candidate is free. At most three numbers make the same
candidate, so the search ends within three times the names that are taken. -/
def firstFree (naming : Naming) (taken : List String) (base : String) : Nat :=
  (((List.range (3 * taken.length + 3)).map (· + 1)).find? fun n =>
    !taken.contains (foldCase naming (candidate naming base n))).getD 1

/-- The name before collisions are looked at. -/
def base (naming : Naming) (raw : String) : String := naming.unreserve (Identifier.ofText raw)

/-- The entry that a new owner gets. -/
def newEntry (naming : Naming) (table : NameTable) (raw : String) (scope : Scope)
    (space source : String) : NameEntry :=
  let n := firstFree naming (table.taken naming scope space) (base naming raw)
  { raw, scope, space, source
    identifier := candidate naming (base naming raw) n
    collision := n }

/-- The identifier of an owner, and the table with the owner in it. -/
def register (naming : Naming) (table : NameTable) (raw : String) (scope : Scope)
    (space source : String) : String × NameTable :=
  match table.find? scope space (ownerKey raw source) with
  | some e => (e.identifier, table)
  | none =>
    let e := table.newEntry naming raw scope space source
    (e.identifier, table ++ [e])

/-- The function name of an operation: its own id if it has one, else made from its route. -/
def operationRaw (method path : String) (id : Option String) : String :=
  match id with
  | some s => if s.isEmpty then Identifier.ofRoute method path else s
  | none => Identifier.ofRoute method path

def registerOperation (naming : Naming) (table : NameTable) (method path : String)
    (id : Option String) (source : String) : String × NameTable :=
  table.register naming (operationRaw method path id) .operation "" source

end NameTable
end OpenApi
