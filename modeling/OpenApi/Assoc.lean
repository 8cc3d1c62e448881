/-!
Association lists that keep the order of insertion.
-/
namespace OpenApi.Assoc

variable {α β : Type} [BEq α]

/-- Sets a key. A key that is there keeps its place. -/
def insert (table : List (α × β)) (key : α) (value : β) : List (α × β) :=
  match table with
  | [] => [(key, value)]
  | (k, v) :: rest => if k == key then (k, value) :: rest else (k, v) :: insert rest key value

/-- Sets a key that is not there yet. -/
def insertNew (table : List (α × β)) (key : α) (value : β) : List (α × β) :=
  if (table.lookup key).isSome then table else table ++ [(key, value)]

def has (table : List (α × β)) (key : α) : Bool := (table.lookup key).isSome

/-- Keeps the first of equal items. -/
def distinct (xs : List α) : List α :=
  xs.foldl (fun acc x => if acc.contains x then acc else acc ++ [x]) []

end OpenApi.Assoc
