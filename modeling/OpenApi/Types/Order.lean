import OpenApi.Types.Descriptor

/-!
The order in which named types are written down, so that each comes after those it needs.
-/
namespace OpenApi.NamedTypes

/-- The names that a type needs at once; recursive references are looked up later. -/
def needs (types : NamedTypes) (d : Descriptor) : List Scalar :=
  d.walk.filterMap fun
    | .reference name t =>
      if !t.recursive && (types.get? name).isSome then some name else none
    | _ => none

/-- The names that were entered, and those that are done. -/
structure Visits where
  entered : List Scalar := []
  done : List Scalar := []

/-- Places a name behind the names that it needs. -/
def visit (types : NamedTypes) : Nat → Visits → Scalar → Visits
  | 0, visits, _ => visits
  | fuel + 1, visits, name =>
    if visits.entered.any (·.same name) then visits
    else
      let visits := { visits with entered := name :: visits.entered }
      let needed := ((types.get? name).map (needs types)).getD []
      let visits := needed.foldl (visit types fuel) visits
      { visits with done := visits.done ++ [name] }

/-- All names, each behind those it needs as far as that is possible. -/
def dependencyOrder (types : NamedTypes) : List Scalar :=
  ((types.map Prod.fst).foldl (visit types (types.length + 1)) {}).done

end OpenApi.NamedTypes
