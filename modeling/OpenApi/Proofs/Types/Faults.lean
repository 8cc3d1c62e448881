import OpenApi.Proofs.Fault
import OpenApi.Proofs.Types.Totality
import OpenApi.Wire.Build

/-!
What mapping can fail with. Schemas mention only ids of their table, and names stand for such ids, so
no node is missed, even where a mapping fails for other reasons.
-/
namespace OpenApi

open Assoc (keys)
open Outcome (Faults Risks)

/-- A mapping that misses no node. -/
abbrev Sure {α : Type} (x : Mapping α) : Prop := Risks (·.knowsNode = true) x

namespace Mapper

variable {m : Mapper} {id : String}

theorem confines_known (h : m.table.Followable) : m.Confines (·.knowsNode = true) where
  follow := h
  type _ := (Value.inner_local _).known
  format _ _ _ := (Scalar.inner_local _).known
  kind _ _ := rfl
  target _ _ _ := rfl
  marker _ _ _ _ _ := rfl

section
variable (h : m.table.Followable)
include h

theorem mapType_sure (hid : id ∈ keys m.table.nodes) : Sure (m.mapType id) :=
  mapWithin_risks (confines_known h) hid (.inl rfl)

theorem mapUse_sure (hid : id ∈ keys m.table.nodes) : Sure (m.mapUse id) :=
  useWith_risks (mapType_sure h hid)

/-! ### Named types -/

variable (hnames : ∀ id ∈ keys m.names, id ∈ keys m.table.nodes)
include hnames

theorem namedType_sure (name : Scalar) : Sure (m.namedType name) := by
  unfold namedType
  split
  · next id _ hfind =>
    exact mapType_sure h (hnames id (Assoc.mem_keys_of_mem (List.mem_of_find?_eq_some hfind)))
  · exact .throw rfl

theorem namedTypes_sure : Sure m.namedTypes :=
  namedTypes_risks fun id hid => mapType_sure h (hnames id hid)

theorem gatherTypes_sure (fuel : Nat) (found : NamedTypes) (pending : List Scalar) :
    Sure (m.gatherTypes fuel found pending) := by
  induction fuel generalizing found pending with
  | zero => exact .throw rfl
  | succ fuel ih =>
    unfold gatherTypes
    split
    · exact .pure
    · exact (namedType_sure h hnames _).bind fun d => ih _ _

theorem typesWithin_sure (d : Descriptor) : Sure (m.typesWithin d) :=
  gatherTypes_sure h hnames _ _ _

end

end Mapper
end OpenApi
