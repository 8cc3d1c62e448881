import OpenApi.Proofs.Types.Parts
import OpenApi.Wire.Build

/-!
The types that a wire format goes by. They are all made by mapping, so what is said of all types of a
mapper holds of them.
-/
namespace OpenApi

open Mapper (MemoHolds)
open Outcome (Gives)

variable {m : Mapper} {Q : Descriptor → Prop}

/-- The states of a mapper that is asked for types and for the wire formats of parameters, in any order and
whether or not it can give them. -/
inductive Mapper.Reached (m : Mapper) : MapState → Prop
  | start : Reached m {}
  | type {st : MapState} (h : Reached m st) (id : String) : Reached m ((m.mapType id).run.run st).2
  | codec {st : MapState} (h : Reached m st) (p : Parameter) : Reached m ((p.codec m).run.run st).2

/-- A codec is made of the type that a parameter uses and the types that are gathered from it. -/
theorem Parameter.codec_gives {inv : MapState → Prop} {S : Descriptor → NamedTypes → Prop}
    (huse : ∀ id, Gives inv (m.mapUse id) Q) (hany : Q .any)
    (htypes : ∀ d, Q d → Gives inv (m.typesWithin d) (S d)) (p : Parameter) :
    Gives inv (p.codec m) fun c => c.parameter = p ∧ Q c.type ∧ S c.type c.types := by
  unfold Parameter.codec
  split
  · split
    · refine (huse _).bind fun type htype => ?_
      exact (htypes type htype).bind fun types h => .pure ⟨rfl, htype, h⟩
    · refine (Gives.pure hany).bind fun type htype => ?_
      exact (htypes type htype).bind fun types h => .pure ⟨rfl, htype, h⟩
  · exact .throw
  · next id _ _ =>
    have hrest : Gives inv (do
        let type ← m.mapUse id
        let types ← m.typesWithin type
        return { parameter := p, shape := ← p.shape types type, type, types : Codec })
        fun c => c.parameter = p ∧ Q c.type ∧ S c.type c.types := by
      refine (huse id).bind fun type htype => (htypes type htype).bind fun types h => ?_
      exact (Gives.lift fun _ _ => trivial).bind fun shape _ => .pure ⟨rfl, htype, h⟩
    split
    · exact Gives.throw.bind fun _ (h : False) => h.elim
    · exact hrest

/-- What requests keep holds of the states that they lead to. -/
theorem Mapper.Reached.holds {inv : MapState → Prop} {st : MapState} {P : String → Descriptor → Prop}
    {R : Parameter → Codec → Prop} (h : m.Reached st) (hstart : inv {})
    (htype : ∀ id, Gives inv (m.mapType id) (P id)) (hcodec : ∀ p, Gives inv (p.codec m) (R p)) : inv st := by
  induction h with
  | start => exact hstart
  | type _ id ih => exact (htype id).keeps ih
  | codec _ p ih => exact (hcodec p).keeps ih

section
variable (hm : m.Upholds Q)
include hm

theorem Mapper.Upholds.gatherTypes (fuel : Nat) (found : NamedTypes) (pending : List Scalar)
    (hfound : ∀ e ∈ found, Q e.2) :
    Gives (MemoHolds fun _ => Q) (m.gatherTypes fuel found pending) fun types => ∀ e ∈ types, Q e.2 := by
  induction fuel generalizing found pending with
  | zero => exact .throw
  | succ fuel ih =>
    unfold Mapper.gatherTypes
    split
    · exact .pure hfound
    · next name rest _ =>
      refine (hm.namedType name).bind fun d hd => ih _ _ fun e he => ?_
      rcases List.mem_append.1 he with he | he
      · exact hfound e he
      · rw [List.mem_singleton.1 he]
        exact hd

theorem Mapper.Upholds.typesWithin (d : Descriptor) :
    Gives (MemoHolds fun _ => Q) (m.typesWithin d) fun types => ∀ e ∈ types, Q e.2 :=
  hm.gatherTypes _ _ _ nofun

/-- The type of a parameter and all named types that it reaches. -/
theorem Mapper.Upholds.codec (p : Parameter) : Gives (MemoHolds fun _ => Q) (p.codec m) fun c =>
    c.parameter = p ∧ Q c.type ∧ ∀ e ∈ c.types, Q e.2 :=
  Parameter.codec_gives hm.mapUse (hm.any _) (fun d _ => hm.typesWithin d) p

/-- What is said of all types of a mapper is true of those that it has made. -/
theorem Mapper.Upholds.reached {st : MapState} (h : m.Reached st) : MemoHolds (fun _ => Q) st :=
  h.holds (List.forall_mem_nil _) hm.mapType hm.codec

end

end OpenApi
