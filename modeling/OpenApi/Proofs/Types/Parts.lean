import OpenApi.Proofs.Types.Names

/-!
Types and their parts. What is said of a type and follows from what is said of its parts holds of the type
of a schema, if it holds of the references and enumerations that mapping makes of schemas.
-/
namespace OpenApi

namespace Descriptor

/-- The types that a type is made of. -/
def parts : Descriptor → List Descriptor
  | .array items _ => [items]
  | .object fields additional _ => fields.map (·.type) ++ additional.toList
  | .union members _ | .intersection members _ => members
  | .primitive .. | .enum .. | .reference .. => []

theorem mem_walkAll {ds : List Descriptor} {e : Descriptor} :
    e ∈ walkAll ds ↔ ∃ d ∈ ds, e ∈ d.walk := by
  induction ds with
  | nil => simp [walkAll]
  | cons d rest ih => simp [walkAll, ih]

theorem mem_walkFields {fields : List Field} {e : Descriptor} :
    e ∈ walkFields fields ↔ ∃ f ∈ fields, e ∈ f.type.walk := by
  induction fields with
  | nil => simp [walkFields]
  | cons f rest ih =>
    simp only [walkFields, List.mem_append, ih, List.mem_cons, exists_eq_or_imp]
    cases f
    rfl

theorem mem_walkAdditional {additional : Additional Descriptor} {e : Descriptor} :
    e ∈ walkAdditional additional ↔ ∃ d ∈ additional.toList, e ∈ d.walk := by
  cases additional <;> simp [walkAdditional, Additional.toList]

/-- Inside of a type are the type itself and what is inside of its parts. -/
theorem mem_walk_iff {d e : Descriptor} : e ∈ d.walk ↔ e = d ∨ ∃ part ∈ d.parts, e ∈ part.walk := by
  cases d with
  | object fields additional t =>
    simp only [walk, parts, List.mem_cons, List.mem_append, mem_walkFields, mem_walkAdditional,
      List.mem_map, or_and_right, exists_or, exists_exists_and_eq_and]
  | _ => simp [walk, parts, mem_walkAll]

theorem mem_walk_of_part {d e part : Descriptor} (hpart : part ∈ d.parts) (he : e ∈ part.walk) :
    e ∈ d.walk :=
  mem_walk_iff.2 (.inr ⟨part, hpart, he⟩)

theorem sizeOf_part_lt {d part : Descriptor} (h : part ∈ d.parts) : sizeOf part < sizeOf d := by
  cases d with
  | array items t =>
    obtain rfl := List.mem_singleton.1 h
    simp only [array.sizeOf_spec]
    omega
  | object fields additional t =>
    rcases List.mem_append.1 h with h | h
    · obtain ⟨f, hf, rfl⟩ := List.mem_map.1 h
      have hlt := List.sizeOf_lt_of_mem hf
      cases f
      simp only [object.sizeOf_spec, FieldOf.mk.sizeOf_spec] at hlt ⊢
      omega
    · cases additional with
      | schema d =>
        obtain rfl := List.mem_singleton.1 h
        simp only [object.sizeOf_spec, Additional.schema.sizeOf_spec]
        omega
      | _ => cases h
  | union members t =>
    have hlt : sizeOf part < sizeOf members := List.sizeOf_lt_of_mem h
    simp only [union.sizeOf_spec]
    omega
  | intersection members t =>
    have hlt : sizeOf part < sizeOf members := List.sizeOf_lt_of_mem h
    simp only [intersection.sizeOf_spec]
    omega
  | _ => cases h

theorem partsInduction {P : Descriptor → Prop} (h : ∀ d, (∀ part ∈ d.parts, P part) → P d)
    (d : Descriptor) : P d := by
  refine h d fun part hpart => ?_
  have hlt := sizeOf_part_lt hpart
  exact partsInduction h part
termination_by sizeOf d

theorem mem_walk_trans {d e f : Descriptor} (he : e ∈ d.walk) (hf : f ∈ e.walk) : f ∈ d.walk := by
  rcases mem_walk_iff.1 he with rfl | ⟨part, hpart, he⟩
  · exact hf
  · have hlt := sizeOf_part_lt hpart
    exact mem_walk_of_part hpart (mem_walk_trans he hf)
termination_by sizeOf d

theorem parts_withTraits (d : Descriptor) (f : Traits → Traits) : (d.withTraits f).parts = d.parts := by
  cases d <;> rfl

/-- What holds of a type if it holds of its parts, but for enumerations and references. Traits make no
difference, unless they make a type less recursive. -/
structure Compositional (Q : Descriptor → Prop) : Prop where
  compose : ∀ {d}, (∀ base literals t, d ≠ .enum base literals t) → (∀ name t, d ≠ .reference name t) →
    (∀ part ∈ d.parts, Q part) → Q d
  withTraits : ∀ {d f}, (∀ t, (f t).recursive = false → t.recursive = false) → Q d → Q (d.withTraits f)

theorem Compositional.primitive {Q : Descriptor → Prop} (hQ : Compositional Q) (p : Primitive)
    (t : Traits) : Q (.primitive p t) :=
  hQ.compose (by simp) (by simp) (List.forall_mem_nil _)

end Descriptor

namespace Mapper
open Descriptor (Compositional)
open Outcome (Gives)

variable {m : Mapper} {use : Use} {n : Node} {inv : MapState → Prop} {Q : Descriptor → Prop}

theorem addTraits_recursive (n : Node) (t : Traits) (h : (addTraits n t).recursive = false) :
    t.recursive = false := h

theorem unionTraits_recursive (m : Mapper) (n : Node) (nullable : Bool) (t : Traits)
    (h : (m.unionTraits n nullable t).recursive = false) : t.recursive = false :=
  (Bool.or_eq_false_iff.1 h).1

/-! ### Each kind of schema -/

section
variable (hinv : ∀ s notices, inv s → inv { s with notices })
include hinv

theorem warn_gives {message : String} : Gives inv (warn n message) fun _ => True :=
  (Gives.modify fun s => hinv s _).bind fun _ _ => .pure trivial

theorem ofFormat_gives {type : String} {known? : String → Option Primitive}
    {fallback : Primitive} : Gives inv (ofFormat n type known? fallback) fun _ => True := by
  unfold ofFormat
  split
  · exact .pure trivial
  · split
    · exact .pure trivial
    · exact (Gives.lift fun _ _ => trivial).bind fun _ _ =>
        (warn_gives hinv).bind fun _ _ => .pure trivial
  · exact .throw

theorem primitive_gives : Gives inv (primitive n) fun _ => True := by
  unfold primitive
  split
  · exact .pure trivial
  · exact .pure trivial
  · exact .pure trivial
  · exact .pure trivial
  · exact ofFormat_gives hinv
  · exact ofFormat_gives hinv
  · exact (Gives.lift fun _ _ => trivial).bind fun _ _ =>
      (warn_gives hinv).bind fun _ _ => .pure trivial

end

theorem field_gives {p : Property} (huse : Gives inv (use p.node) Q) :
    Gives inv (m.field use p) fun f => f.name = p.name ∧ Q f.type :=
  (Gives.lift fun _ _ => trivial).bind fun _ _ =>
    (Gives.lift fun _ _ => trivial).bind fun _ _ => huse.bind fun _ hd =>
      (Gives.lift fun _ _ => trivial).bind fun _ _ => .pure ⟨rfl, hd⟩

theorem additional_gives {a : Additional String} (huse : ∀ id ∈ a.toList, Gives inv (use id) Q) :
    Gives inv (additional use a) fun b => ∀ d ∈ b.toList, Q d := by
  cases a with
  | unspecified => exact .pure (List.forall_mem_nil _)
  | flag b => exact .pure (List.forall_mem_nil _)
  | schema id =>
    refine (huse id (List.mem_singleton_self id)).bind fun d hd => .pure ?_
    intro e he
    rw [List.mem_singleton.1 he]
    exact hd

/-- A reference has the name of its target, or stands for what its target is made into. -/
theorem target_gives (huse : n.isMarker = false → ∀ id ∈ n.target, Gives inv (use id) Q)
    (hname : ∀ id ∈ n.target, ∀ name, m.names.lookup id = some name →
      Q (.reference name { recursive := n.isMarker || m.recursive.contains id })) :
    Gives inv (m.target use n) Q := by
  unfold target
  cases htarget : n.target with
  | none => exact .throw
  | some target =>
    dsimp only
    cases hlookup : m.names.lookup target with
    | some name => exact .pure (hname target htarget name hlookup)
    | none =>
      dsimp only
      split
      · exact Gives.throw.bind fun _ (h : False) => h.elim
      · next hmark => exact huse (Bool.eq_false_iff.2 hmark) target htarget

/-- The members of a union that take more than null. -/
def present (m : Mapper) (ids : List String) : List String :=
  ids.filter fun id => (m.isNull id).toOption != some true

theorem unionMembers_gives {P : String → Descriptor → Prop} {ids : List String}
    (huse : ∀ id ∈ ids, Gives inv (use id) (P id)) :
    Gives inv (m.unionMembers use ids) fun r => List.Forall₂ P (m.present ids) r.1 := by
  induction ids with
  | nil => exact .pure .nil
  | cons id rest ih =>
    obtain ⟨hid, hrest⟩ := List.forall_mem_cons.1 huse
    refine (Gives.lift fun isNull h => h).bind fun isNull hnull => ?_
    rw [present, List.filter_cons, hnull]
    cases isNull with
    | true => exact (ih hrest).bind fun r hr => .pure hr
    | false => exact hid.bind fun d hd => (ih hrest).bind fun r hr => .pure (.cons hd hr)

/-! ### What a schema gives its type -/

/-- What a type takes from the schema that it is made of: its literals and the names of its fields. -/
structure MadeOf (n : Node) (d : Descriptor) : Prop where
  ne_reference : ∀ name t, d ≠ .reference name t
  literals : ∀ base literals t, d = .enum base literals t → literals = n.enum
  fields : ∀ f ∈ d.fields, ∃ p ∈ n.properties, f.name = p.name

theorem madeOf_primitive (p : Primitive) (t : Traits) : MadeOf n (.primitive p t) :=
  ⟨by simp, by simp, List.forall_mem_nil _⟩

theorem madeOf_union (members : List Descriptor) (t : Traits) : MadeOf n (.union members t) :=
  ⟨by simp, by simp, List.forall_mem_nil _⟩

theorem MadeOf.compose {d : Descriptor} (hmade : MadeOf n d) (hQ : Compositional Q)
    (henum : ∀ base t, Q (.enum base n.enum t)) (hparts : ∀ part ∈ d.parts, Q part) : Q d := by
  cases d with
  | enum base literals t =>
    rw [hmade.literals base literals t rfl]
    exact henum base t
  | reference name t => exact absurd rfl (hmade.ne_reference name t)
  | _ => exact hQ.compose (by simp) (by simp) hparts

/-- A schema that is neither a reference nor a union makes a type of its own, of the types of the places
that it mentions. -/
theorem own_gives (hinv : n.kind = .enum ∨ n.kind = .primitive → ∀ s notices, inv s → inv { s with notices })
    (hany : ∀ t, Q (.primitive .any t))
    (huse : ∀ id ∈ n.mentions, Gives inv (use id) Q) (hreference : n.kind ≠ .reference)
    (hrecursive : n.kind ≠ .recursive) (hunion : n.kind ≠ .union) :
    Gives inv (m.node use n) fun d => MadeOf n d ∧ ∀ part ∈ d.parts, Q part := by
  unfold node
  cases hkind : n.kind with
  | reference => exact absurd hkind hreference
  | recursive => exact absurd hkind hrecursive
  | union => exact absurd hkind hunion
  | object =>
    have hfield : ∀ p ∈ n.properties,
        Gives inv (m.field use p) fun f => Q f.type ∧ ∃ p ∈ n.properties, f.name = p.name :=
      fun p hp => (field_gives (huse p.node (Node.property_mem_mentions hp))).mono
        fun f hf => ⟨hf.2, p, hp, hf.1⟩
    refine (Gives.mapM hfield).bind fun fields hfields => ?_
    refine (additional_gives fun id hid =>
      huse id (Node.additional_mem_mentions hid)).bind fun more hmore => .pure ?_
    have hfields := Outcome.forall_mem_of_forall₂ hfields
    refine ⟨⟨by simp, by simp, fun f hf => (hfields f hf).2⟩, List.forall_mem_append.2 ⟨?_, hmore⟩⟩
    exact List.forall_mem_map.2 fun f hf => (hfields f hf).1
  | array =>
    have hwrap : ∀ d : Descriptor, Q d → Gives inv
        (pure (.array d (m.ownTraits n {})) : Mapping Descriptor)
        fun d => MadeOf n d ∧ ∀ part ∈ d.parts, Q part :=
      fun d hd => .pure ⟨⟨by simp, by simp, List.forall_mem_nil _⟩, List.forall_mem_singleton.2 hd⟩
    dsimp only
    cases hid : n.items with
    | none => exact (Gives.pure (hany _)).bind hwrap
    | some id =>
      dsimp only
      split
      · exact (Gives.pure (hany _)).bind hwrap
      · exact (huse id (Node.items_mem_mentions hid)).bind hwrap
  | enum =>
    refine (primitive_gives (hinv (.inl hkind))).bind fun r _ =>
      .pure ⟨⟨by simp, ?_, List.forall_mem_nil _⟩, List.forall_mem_nil _⟩
    intro base literals t heq
    cases heq
    rfl
  | intersection =>
    refine (Gives.mapM fun id hid => huse id (Node.member_mem_mentions hid)).bind fun ds hds => .pure ?_
    exact ⟨⟨by simp, by simp, List.forall_mem_nil _⟩, Outcome.forall_mem_of_forall₂ hds⟩
  | primitive =>
    exact (primitive_gives (hinv (.inr hkind))).bind fun r _ =>
      .pure ⟨madeOf_primitive _ _, List.forall_mem_nil _⟩

section
variable (hmade : ∀ {d}, MadeOf n d → (∀ part ∈ d.parts, Q part) → Q d)
  (htraits : ∀ {d f}, (∀ t, (f t).recursive = false → t.recursive = false) → Q d → Q (d.withTraits f))
include hmade htraits

theorem union_gives (huse : ∀ id ∈ n.members, Gives inv (use id) Q) : Gives inv (m.union use n) Q := by
  refine (unionMembers_gives huse).bind fun r hr => .pure ?_
  have hr : ∀ d ∈ r.1, Q d := Outcome.forall_mem_of_forall₂ hr
  refine htraits (unionTraits_recursive m n _) ?_
  split
  · exact hmade (madeOf_primitive _ _) (List.forall_mem_nil _)
  · next hmembers _ => exact hr _ (hmembers ▸ List.mem_singleton_self _)
  · exact hmade (madeOf_union _ _) hr

/-- What follows from what a type takes from its schema, and from what is said of its parts, holds of the
type of a schema, if it holds of the places that the schema mentions and of its own reference. -/
theorem node_gives (hinv : n.kind = .enum ∨ n.kind = .primitive → ∀ s notices, inv s → inv { s with notices })
    (huse : n.isMarker = false → ∀ id ∈ n.mentions, Gives inv (use id) Q)
    (hname : ∀ id ∈ n.target, ∀ name, m.names.lookup id = some name →
      Q (.reference name { recursive := n.isMarker || m.recursive.contains id })) :
    Gives inv (m.node use n) Q := by
  have htarget : Gives inv (m.target use n) Q :=
    target_gives (fun hmark id hid => huse hmark id (Node.target_mem_mentions hid)) hname
  have hreference : Gives inv (do return (← m.target use n).withTraits (addTraits n)) Q :=
    htarget.bind fun d hd => .pure (htraits (addTraits_recursive n) hd)
  by_cases hkind : n.kind = .reference ∨ n.kind = .recursive ∨ n.kind = .union
  · unfold node
    rcases hkind with hkind | hkind | hkind
    · rw [hkind]
      exact hreference
    · rw [hkind]
      exact hreference
    · rw [hkind]
      exact union_gives hmade htraits fun id hid =>
        huse (by simp [Node.isMarker, hkind]) id (Node.member_mem_mentions hid)
  · simp only [not_or] at hkind
    obtain ⟨hreference, hrecursive, hunion⟩ := hkind
    refine (own_gives hinv (fun t => hmade (madeOf_primitive _ _) (List.forall_mem_nil _)) (huse ?_) hreference hrecursive
      hunion).mono fun d hd => hmade hd.1 hd.2
    simpa [Node.isMarker] using hrecursive

end

theorem useWith_keeps {structural : Use} {id : String} (h : ∀ id, Gives inv (structural id) fun _ => True) :
    Gives inv (m.useWith structural id) fun _ => True := by
  unfold useWith
  split
  · exact .pure trivial
  · exact h id

/-! ### The type of an id -/

/-- What is said of the type of each id holds of the types that were made. -/
def MemoHolds (Q : String → Descriptor → Prop) (st : MapState) : Prop := ∀ e ∈ st.memo, Q e.1 e.2

/-- What is said of the type of each id, and follows from what is said of those it is made of, holds of
the type of every id. -/
theorem mapWithin_holds {Q : String → Descriptor → Prop}
    (hnode : ∀ structural id n, (id, n) ∈ m.table.nodes →
      (∀ j, Gives (MemoHolds Q) (structural j) (Q j)) →
        Gives (MemoHolds Q) (m.node (m.useWith structural) n) (Q id))
    (fuel : Nat) (id : String) : Gives (MemoHolds Q) (m.mapWithin fuel id) (Q id) := by
  induction fuel generalizing id with
  | zero => exact .throw
  | succ fuel ih =>
    refine Gives.get.bind fun s hs => ?_
    cases hlookup : s.memo.lookup id with
    | some found => exact .pure (hs _ (Assoc.mem_of_lookup hlookup))
    | none =>
      refine (Gives.lift fun n hn => Assoc.mem_of_lookup (SchemaTable.node_ok_iff.1 hn)).bind
        fun n hn => (hnode _ id n hn ih).bind fun d hd => ?_
      refine (Gives.modify fun s hs e he => ?_).bind fun _ _ => .pure hd
      rcases List.mem_append.1 he with he | he
      · exact hs e he
      · rw [List.mem_singleton.1 he]
        exact hd

/-- What is said of all types of a mapper, whichever schemas they are made of. -/
structure Upholds (m : Mapper) (Q : Descriptor → Prop) : Prop where
  any : ∀ t, Q (.primitive .any t)
  made : ∀ e ∈ m.table.nodes, ∀ {d}, MadeOf e.2 d → (∀ part ∈ d.parts, Q part) → Q d
  withTraits : ∀ {d f}, (∀ t, (f t).recursive = false → t.recursive = false) → Q d → Q (d.withTraits f)
  name : ∀ e ∈ m.names, ∀ t, Q (.reference e.2 t)

theorem Upholds.of_compositional (hQ : Compositional Q) (hname : ∀ e ∈ m.names, ∀ t, Q (.reference e.2 t))
    (henum : ∀ e ∈ m.table.nodes, ∀ base t, Q (.enum base e.2.enum t)) : m.Upholds Q where
  any := hQ.primitive .any
  made e he _ hmade := hmade.compose hQ (henum e he)
  withTraits := hQ.withTraits
  name := hname

section
variable (hm : m.Upholds Q)
include hm

theorem Upholds.useWith {structural : Use} (h : ∀ id, Gives inv (structural id) Q) (id : String) :
    Gives inv (m.useWith structural id) Q := by
  unfold Mapper.useWith
  cases hlookup : m.names.lookup id with
  | none => exact h id
  | some name => exact .pure (hm.name _ (Assoc.mem_of_lookup hlookup) _)

theorem Upholds.mapType (id : String) : Gives (MemoHolds fun _ => Q) (m.mapType id) Q := by
  refine mapWithin_holds (fun structural id n hn h => ?_) _ id
  refine node_gives (hm.made _ hn) hm.withTraits (fun _ _ _ hs => hs) ?_ ?_
  · exact fun _ id _ => hm.useWith h id
  · exact fun target _ name hlookup => hm.name _ (Assoc.mem_of_lookup hlookup) _

theorem Upholds.mapUse (id : String) : Gives (MemoHolds fun _ => Q) (m.mapUse id) Q :=
  hm.useWith hm.mapType id

theorem Upholds.namedType (name : Scalar) : Gives (MemoHolds fun _ => Q) (m.namedType name) Q := by
  unfold Mapper.namedType
  split
  · exact hm.mapType _
  · exact .throw

end

end Mapper
end OpenApi
