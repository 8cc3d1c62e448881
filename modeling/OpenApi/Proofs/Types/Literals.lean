import OpenApi.Proofs.Schema.Regular
import OpenApi.Proofs.Schema.Siblings
import OpenApi.Proofs.Types.References

/-!
Literals of enumerations. A schema that lists null among its values is nullable instead, and merging takes
over the values of one of its fragments, so null is no literal of any type that is made of a document.
-/
namespace OpenApi

namespace Resolve

variable {setting : Setting} {roots : List SchemaPlace} {n : Node}

theorem Plain.null_not_mem_enum {raw : Entries} {pointer : String} (h : Plain setting raw pointer n) :
    .null ∉ n.enum := by
  have henum : n.enum = n.fragment.enum := rfl
  rw [henum, h.fragment_eq, plainFragment]
  split
  · exact List.not_mem_nil
  · rw [(Resolve.singleFields raw _).enum, List.mem_filter]
    exact fun hmem => Bool.false_ne_true hmem.2

/-- The values of a composition are those of a fragment, or there are none. -/
theorem mem_settled {ns : List Node} {a : Attribute} {v : Value}
    (h : v ∈ Merge.settled ns a (·.enum) []) : ∃ f ∈ ns, v ∈ f.enum := by
  unfold Merge.settled at h
  cases hlast : Merge.lastDeclaring? ns a with
  | none =>
    rw [hlast] at h
    cases h
  | some f =>
    rw [hlast] at h
    exact ⟨f, Merge.mem_of_lastDeclaring hlast, h⟩

theorem Origin.null_not_mem_enum (h : Origin setting roots n) : .null ∉ n.enum := by
  induction h with
  | plain hs hraw hshape h => exact h.null_not_mem_enum
  | merged hs hraw hshape hall hstored hleads hflat hbeside hpresent hmerged discriminator ih =>
    obtain ⟨t, cs, -, -, rfl⟩ := Merge.merge_ok hmerged
    intro hnull
    obtain ⟨f, hf, hnull⟩ := mem_settled hnull
    rcases List.mem_append.1 hf with hf | hf
    · exact (hbeside f (Option.mem_toList.1 hf)).null_not_mem_enum hnull
    · exact ih f hf hnull
  | _ => exact List.not_mem_nil

end Resolve

namespace Descriptor

/-- Null is no literal of an enumeration in a type. -/
def Definite (d : Descriptor) : Prop :=
  ∀ base literals t, .enum base literals t ∈ d.walk → .null ∉ literals

variable {d : Descriptor} {t : Traits}

theorem definite_enum {base : Primitive} {literals : List Value} :
    (enum base literals t).Definite ↔ .null ∉ literals := by
  constructor
  · exact fun h => h base literals t (mem_walk_iff.2 (.inl rfl))
  · intro h _ _ _ hmem
    rcases mem_walk_iff.1 hmem with heq | ⟨_, hpart, -⟩
    · cases heq
      exact h
    · cases hpart

theorem Definite.part {part : Descriptor} (h : d.Definite) (hpart : part ∈ d.parts) : part.Definite :=
  fun base literals t hmem => h base literals t (mem_walk_of_part hpart hmem)

theorem compositional_definite : Compositional Definite where
  compose henum _ hparts base literals t hmem := by
    rcases mem_walk_iff.1 hmem with heq | ⟨part, hpart, hmem⟩
    · exact absurd heq.symm (henum base literals t)
    · exact hparts part hpart base literals t hmem
  withTraits := by
    intro d f _ h base literals u hmem
    rcases mem_walk_iff.1 hmem with heq | ⟨part, hpart, hmem⟩
    · cases d with
      | enum base literals t =>
        cases heq
        exact definite_enum.1 h
      | _ => cases heq
    · rw [parts_withTraits] at hpart
      exact h.part hpart base literals u hmem

end Descriptor

/-- Null is no literal of any type that is made of a document. -/
theorem Mapper.upholds_definite {doc : Value} {policy : MergePolicy} {table : SchemaTable}
    {m : Mapper} (htable : SchemaTable.ofDocument doc policy = .ok table)
    (hm : Mapper.ofTable table = .ok m) : m.Upholds Descriptor.Definite := by
  refine .of_compositional Descriptor.compositional_definite ?_ ?_
  · intro e he t base literals u hmem
    rcases Descriptor.mem_walk_iff.1 hmem with heq | ⟨part, hpart, -⟩
    · cases heq
    · cases hpart
  · intro e he base t
    obtain ⟨names, a, hc⟩ := SchemaTable.ofDocument_ok htable
    obtain rfl := (Mapper.ofTable_names hc hm).table_eq
    exact Descriptor.definite_enum.2 (hc.origin he).null_not_mem_enum

end OpenApi
