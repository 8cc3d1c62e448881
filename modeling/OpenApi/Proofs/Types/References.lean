import OpenApi.Proofs.Types.Parts

/-!
References in types. What holds of the references to named schemas, and of those in the types that were
made before, holds of all references in the type of a schema. So the references that a type needs at
once, with no recursion in between, lead to schemas that were completed before its own.
-/
namespace OpenApi

theorem NamedTypes.puts_insert : Assoc.Puts (fun a b : Scalar × Descriptor => a.1.same b.1)
    (fun a b => (a.1, b.2)) fun types e => NamedTypes.insert types e.1 e.2 :=
  ⟨fun _ => rfl, fun _ _ _ => rfl⟩

namespace Descriptor

/-- What is said of every reference in a type. -/
def AllReferences (R : Scalar → Traits → Prop) (d : Descriptor) : Prop :=
  ∀ name t, .reference name t ∈ d.walk → R name t

/-- A reference in a type to a name that must have been written down before. -/
def Awaits (d : Descriptor) (name : Scalar) : Prop :=
  ∃ t, .reference name t ∈ d.walk ∧ t.recursive = false

variable {R : Scalar → Traits → Prop} {t : Traits}

theorem allReferences_iff_parts {d : Descriptor} (h : ∀ name t, d ≠ .reference name t) :
    d.AllReferences R ↔ ∀ part ∈ d.parts, part.AllReferences R := by
  constructor
  · exact fun hd part hpart name t ht => hd name t (mem_walk_of_part hpart ht)
  · intro hparts name t ht
    rcases mem_walk_iff.1 ht with heq | ⟨part, hpart, ht⟩
    · exact absurd heq.symm (h name t)
    · exact hparts part hpart name t ht

theorem allReferences_enum {p : Primitive} {literals : List Value} :
    (Descriptor.enum p literals t).AllReferences R :=
  (allReferences_iff_parts (by simp)).2 nofun

theorem allReferences_reference {name : Scalar} :
    (Descriptor.reference name t).AllReferences R ↔ R name t := by
  simp [AllReferences, walk]

theorem allReferences_array {d : Descriptor} :
    (Descriptor.array d t).AllReferences R ↔ d.AllReferences R :=
  (allReferences_iff_parts (by simp)).trans List.forall_mem_singleton

theorem allReferences_union {ds : List Descriptor} :
    (Descriptor.union ds t).AllReferences R ↔ ∀ d ∈ ds, d.AllReferences R :=
  allReferences_iff_parts (by simp)

theorem allReferences_object {fields : List Field} {additional : Additional Descriptor} :
    (Descriptor.object fields additional t).AllReferences R ↔
      (∀ f ∈ fields, f.type.AllReferences R) ∧ ∀ d ∈ additional.toList, d.AllReferences R := by
  rw [allReferences_iff_parts (by simp), parts, List.forall_mem_append, List.forall_mem_map]

/-- Nothing that is said of references is undone by traits that make none of them less recursive. -/
def Stable (R : Scalar → Traits → Prop) : Prop :=
  ∀ name t u, (u.recursive = false → t.recursive = false) → R name t → R name u

theorem AllReferences.withTraits (hR : Stable R) {d : Descriptor} (h : d.AllReferences R)
    {f : Traits → Traits} (hf : ∀ t, (f t).recursive = false → t.recursive = false) :
    (d.withTraits f).AllReferences R := by
  intro name u hu
  rcases mem_walk_iff.1 hu with heq | ⟨part, hpart, hu⟩
  · cases d with
    | reference name t =>
      cases heq
      exact hR name t (f t) (hf t) (allReferences_reference.1 h)
    | _ => cases heq
  · rw [parts_withTraits] at hpart
    exact h name u (mem_walk_of_part hpart hu)

theorem compositional_allReferences (hR : Stable R) : Compositional (AllReferences R) where
  compose _ href h := (allReferences_iff_parts href).2 h
  withTraits hf h := h.withTraits hR hf

end Descriptor

namespace Mapper
open Outcome (Gives)
open Descriptor

variable {m : Mapper} {k : Nat} {use : Use} {n : Node}

/-! ### References that are needed at once -/

/-- All that a type awaits are names of schemas that stand before `k`. -/
def Below (m : Mapper) (k : Nat) (d : Descriptor) : Prop :=
  ∀ name, d.Awaits name → ∃ id, (id, name) ∈ m.names ∧ m.table.position id < k

theorem below_iff {d : Descriptor} : m.Below k d ↔ d.AllReferences fun name t =>
    t.recursive = false → ∃ id, (id, name) ∈ m.names ∧ m.table.position id < k :=
  ⟨fun h name t ht hrec => h name ⟨t, ht, hrec⟩, fun h name ⟨t, ht, hrec⟩ => h name t ht hrec⟩

theorem Below.mono {k l : Nat} {d : Descriptor} (h : m.Below k d) (hkl : k ≤ l) : m.Below l d := by
  intro name hname
  obtain ⟨id, hid, hlt⟩ := h name hname
  exact ⟨id, hid, by omega⟩

/-- The types made so far are below their schemas. -/
def MemoBelow (m : Mapper) (st : MapState) : Prop :=
  ∀ e ∈ st.memo, m.Below (m.table.position e.1) e.2

/-- What is made of the place of an id may refer to the id itself. -/
def UsesBelow (m : Mapper) (use : Use) : Prop :=
  ∀ id, Gives m.MemoBelow (use id) (m.Below (m.table.position id + 1))

theorem useWith_below {structural : Use}
    (h : ∀ id, Gives m.MemoBelow (structural id) (m.Below (m.table.position id))) :
    m.UsesBelow (m.useWith structural) := by
  intro id
  unfold useWith
  cases hlookup : m.names.lookup id with
  | none => exact (h id).mono fun d hd => hd.mono (Nat.le_succ _)
  | some ref =>
    refine .pure (below_iff.2 (allReferences_reference.2 fun _ => ?_))
    exact ⟨id, Assoc.mem_of_lookup hlookup, Nat.lt_succ_self _⟩

/-- Marked references are recursive, and all others lead to what was completed before. -/
theorem node_below (huse : m.UsesBelow use)
    (hn : n.isMarker = false → ∀ id ∈ n.mentions, m.table.position id < k) :
    Gives m.MemoBelow (m.node use n) (m.Below k) := by
  have hstable : Stable fun name t =>
      t.recursive = false → ∃ id, (id, name) ∈ m.names ∧ m.table.position id < k :=
    fun name t u hrec h hu => h (hrec hu)
  have hQ := compositional_allReferences hstable
  refine (node_gives (fun hmade => hmade.compose hQ fun _ _ => allReferences_enum) hQ.withTraits
    (fun _ _ _ hs => hs) ?_ ?_).mono fun d => below_iff.2
  · exact fun hmark id hid => (huse id).mono fun d hd => below_iff.1 (hd.mono (hn hmark id hid))
  · intro target htarget name hlookup
    refine allReferences_reference.2 fun hrec => ?_
    have hmark : n.isMarker = false := (Bool.or_eq_false_iff.1 hrec).1
    exact ⟨target, Assoc.mem_of_lookup hlookup,
      hn hmark target (Node.target_mem_mentions htarget)⟩

theorem mapWithin_gives (horder : m.table.InOrder) (fuel : Nat) (id : String) :
    Gives m.MemoBelow (m.mapWithin fuel id) (m.Below (m.table.position id)) :=
  mapWithin_holds (Q := fun id => m.Below (m.table.position id))
    (fun _ _ _ hn h => node_below (useWith_below h) (horder.earlier hn)) fuel id

/-! ### References to schemas -/

/-- All references in a type are to names of schemas. -/
def Linked (m : Mapper) : Descriptor → Prop :=
  AllReferences fun name _ => ∃ id, (id, name) ∈ m.names

/-- The types made so far are linked. -/
abbrev MemoLinked (m : Mapper) : MapState → Prop := MemoHolds fun _ => m.Linked

theorem upholds_linked (m : Mapper) : m.Upholds m.Linked :=
  .of_compositional (compositional_allReferences fun _ _ _ _ h => h)
    (fun e he _ => allReferences_reference.2 ⟨e.1, he⟩) fun _ _ _ _ => allReferences_enum

end Mapper
end OpenApi
