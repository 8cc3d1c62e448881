import OpenApi.Assoc
import OpenApi.Fault
import OpenApi.Schema.Node

/-!
All schemas of a document, in the order in which they were completed.
-/
namespace OpenApi

/-- `pointers` maps every pointer and reference that was met to the id of a node; `roots` are the ids
of the schemas that the document holds directly. -/
structure SchemaTable where
  pointers : List (String × String) := []
  nodes : List (String × Node) := []
  roots : List String := []

namespace SchemaTable

def node (table : SchemaTable) (id : String) : Checked Node :=
  match table.nodes.lookup id with
  | some n => .ok n
  | none => .error (.schema id .unknownNode)

/-- The node that a pointer leads to. -/
def lookup (table : SchemaTable) (pointer : String) : Checked Node :=
  match table.pointers.lookup pointer with
  | none => .error (.schema pointer .neverResolved)
  | some id =>
    match table.nodes.lookup id with
    | some n => .ok n
    | none => .error .wrongKind

/-- Follows targets from a node; `seen` holds the ids passed. -/
def chase (table : SchemaTable) : Nat → List String → Node → Checked Node
  | 0, _, _ => .error .exhausted
  | fuel + 1, seen, n =>
    match n.target with
    | none => .ok n
    | some target =>
      if seen.contains n.id then .error (.schema n.id .chainWithoutSchema)
      else do chase table fuel (n.id :: seen) (← table.node target)

/-- The schema behind references. No chain is longer than the table. -/
def concrete (table : SchemaTable) (id : String) : Checked Node := do
  chase table (table.nodes.length + 2) [] (← table.node id)

/-- Nodes that refer to a schema around them. -/
def markers (table : SchemaTable) : List Node := (table.nodes.map Prod.snd).filter Node.isMarker

/-- Every marker must lead to a completed schema. -/
def checkMarkers (table : SchemaTable) : Checked Unit :=
  table.markers.forM fun marker => do
    match marker.target with
    | some target =>
      if !Assoc.has table.nodes target then
        throw (.schema marker.id (.targetNeverCompleted target))
    | none => pure ()
    let _ ← table.concrete marker.id

end SchemaTable
end OpenApi
