import OpenApi.Proofs.Schema.Regular
import OpenApi.Proofs.Schema.Siblings
import OpenApi.Proofs.Types.References

/-!
The names of fields. Resolving puts the name of every property into a pointer, so a property whose name has
no text is none of any schema, and the fields that are made of properties have names that a message can quote.
-/
namespace OpenApi

theorem Scalar.inner?_of_text? {s : Scalar} (h : s.text?.isSome = true) : s.inner?.isSome = true := by
  unfold Scalar.text? at h
  split at h
  · rfl
  · rfl
  · exact h

namespace Resolve

variable {setting : Setting} {roots : List SchemaPlace} {n : Node}

/-- Properties that are not fewer than their places all have a place, and so a name with a text. -/
theorem text_of_listed {raw : Entries} {pointer : String} {required : List String}
    (h : (listedProperties raw required).length ≤ (propertyParts raw pointer).length) :
    ∀ e ∈ listedProperties raw required, e.1.text?.isSome = true := by
  unfold listedProperties propertyParts at h
  unfold listedProperties
  split
  · next entries hentries =>
    rw [hentries, List.length_map] at h
    have hall := List.filterMap_length_eq_length.1 (Nat.le_antisymm (List.length_filterMap_le ..) h)
    refine List.forall_mem_map.2 fun e he => ?_
    simpa using hall e he
  · exact List.forall_mem_nil _

theorem Plain.text_of_property {raw : Entries} {pointer : String} (h : Plain setting raw pointer n) :
    ∀ p ∈ n.properties, p.name.text?.isSome = true := by
  cases h with
  | types hseveral members => exact List.forall_mem_nil _
  | single hone h =>
    have hpairs : n.properties.map (fun p => (p.name, p.required)) =
        (singleFragment raw (soleType raw)).properties := congrArg (·.properties) h.fragment
    have hplaces : n.properties.length ≤ (propertyParts raw pointer).length := by
      have hlength := congrArg List.length h.properties
      rw [List.length_map] at hlength
      rw [hlength]
      unfold propertyIds
      split
      · rw [List.length_map]
      · exact Nat.zero_le _
    intro p hp
    have hmem := hpairs ▸ List.mem_map_of_mem (f := fun p : Property => (p.name, p.required)) hp
    rcases (Resolve.singleFields raw (soleType raw)).properties with hnil | hlisted
    · rw [hnil] at hmem
      cases hmem
    · rw [hlisted] at hmem hpairs
      have hlength := congrArg List.length hpairs
      rw [List.length_map] at hlength
      exact text_of_listed (hlength ▸ hplaces) _ hmem

theorem Origin.text_of_property (h : Origin setting roots n) :
    ∀ p ∈ n.properties, p.name.text?.isSome = true := by
  induction h with
  | plain hs hraw hshape h => exact h.text_of_property
  | merged hs hraw hshape hall hstored hleads hflat hbeside hpresent hmerged discriminator ih =>
    obtain ⟨t, cs, -, -, rfl⟩ := Merge.merge_ok hmerged
    intro p hp
    obtain ⟨f, hf, q, hq, hname, -⟩ := Merge.exists_of_mem_properties hp
    rw [← hname]
    rcases List.mem_append.1 hf with hf | hf
    · exact (hbeside f (Option.mem_toList.1 hf)).text_of_property q hq
    · exact ih f hf q hq
  | _ => exact List.forall_mem_nil _

end Resolve

namespace Descriptor

/-- The names of the fields in a type can be put into a message. -/
def Quotable (d : Descriptor) : Prop := ∀ e ∈ d.walk, ∀ f ∈ e.fields, f.name.inner?.isSome = true

variable {d : Descriptor}

theorem quotable_iff : d.Quotable ↔
    (∀ f ∈ d.fields, f.name.inner?.isSome = true) ∧ ∀ part ∈ d.parts, part.Quotable := by
  constructor
  · exact fun h => ⟨h d (mem_walk_iff.2 (.inl rfl)), fun part hpart e he => h e (mem_walk_of_part hpart he)⟩
  · intro h e he
    rcases mem_walk_iff.1 he with rfl | ⟨part, hpart, he⟩
    · exact h.1
    · exact h.2 part hpart e he

end Descriptor

/-- The names of all fields that are made of a document can be put into a message. -/
theorem Mapper.upholds_quotable {doc : Value} {policy : MergePolicy} {table : SchemaTable} {m : Mapper}
    (htable : SchemaTable.ofDocument doc policy = .ok table) (hm : Mapper.ofTable table = .ok m) :
    m.Upholds Descriptor.Quotable where
  any t := Descriptor.quotable_iff.2 ⟨List.forall_mem_nil _, List.forall_mem_nil _⟩
  made e he := by
    intro d hmade hparts
    obtain ⟨names, a, hc⟩ := SchemaTable.ofDocument_ok htable
    obtain rfl := (Mapper.ofTable_names hc hm).table_eq
    refine Descriptor.quotable_iff.2 ⟨fun f hf => ?_, hparts⟩
    obtain ⟨p, hp, hname⟩ := hmade.fields f hf
    rw [hname]
    exact Scalar.inner?_of_text? ((hc.origin he).text_of_property p hp)
  withTraits := by
    intro d f _ h
    obtain ⟨hfields, hparts⟩ := Descriptor.quotable_iff.1 h
    refine Descriptor.quotable_iff.2 ⟨?_, by rwa [Descriptor.parts_withTraits]⟩
    cases d <;> exact hfields
  name e he t := Descriptor.quotable_iff.2 ⟨List.forall_mem_nil _, List.forall_mem_nil _⟩

end OpenApi
