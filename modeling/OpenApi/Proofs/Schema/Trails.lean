import Mathlib.Logic.Relation
import OpenApi.Proofs.Schema.Origin
import OpenApi.Proofs.Schema.Sources

/-!
Ways through a document. Which schemas are being built when a schema is entered depends on the order in
which the document holds them, but each of them is read without passing the schema, and leads to it.
That is enough to say what resolving can fail with.
-/
namespace OpenApi.Resolve

variable {doc : Value} {roots : List SchemaPlace} {s t q : SchemaPlace} {active : List String}

/-! ### What is being built around a schema -/

/-- What is read without passing the place `avoided`. -/
inductive ReadsAround (doc : Value) (roots : List SchemaPlace) (avoided : String) : SchemaPlace → Prop
  | root {s : SchemaPlace} (h : s ∈ roots) : ReadsAround doc roots avoided s
  | part {s t : SchemaPlace} {raw : Entries} (h : ReadsAround doc roots avoided s)
      (hne : s.pointer ≠ avoided) (hs : schemaEntries? s.schema = some raw)
      (ht : t ∈ parts doc raw s.pointer) : ReadsAround doc roots avoided t

/-- `q` may be being built when `s` is: it is read without passing the place of `s`, and `s` is read
from there. -/
def Around (doc : Value) (roots : List SchemaPlace) (q s : SchemaPlace) : Prop :=
  ReadsAround doc roots s.pointer q ∧ Reads doc [q] s

/-- The way to a schema, by the places on it, the last first. No place is passed twice. -/
inductive Trail (doc : Value) (roots : List SchemaPlace) : SchemaPlace → List String → Prop
  | root {s : SchemaPlace} (h : s ∈ roots) : Trail doc roots s []
  | part {s t : SchemaPlace} {raw : Entries} {active : List String} (h : Trail doc roots s active)
      (hnew : s.pointer ∉ active) (hs : schemaEntries? s.schema = some raw)
      (ht : t ∈ parts doc raw s.pointer) : Trail doc roots t (s.pointer :: active)

namespace Trail

theorem reads (h : Trail doc roots s active) : Reads doc roots s := by
  induction h with
  | root h => exact .root h
  | part _ _ hs ht ih => exact .part ih hs ht

/-- A way that does not pass `avoided`, and what it passes. -/
theorem readsAround (h : Trail doc roots s active) {avoided : String} (havoid : avoided ∉ active) :
    ReadsAround doc roots avoided s ∧ ∀ p ∈ active, ∃ q : SchemaPlace, q.pointer = p ∧
      ReadsAround doc roots avoided q ∧ Reads doc [q] s := by
  induction h with
  | root h => exact ⟨.root h, nofun⟩
  | @part s t raw active h hnew hs ht ih =>
    rw [List.mem_cons, not_or] at havoid
    obtain ⟨hne, havoid⟩ := havoid
    obtain ⟨hself, hpassed⟩ := ih havoid
    refine ⟨.part hself (Ne.symm hne) hs ht, fun p hp => ?_⟩
    rcases List.mem_cons.1 hp with rfl | hp
    · exact ⟨s, rfl, hself, .part (.root (List.mem_singleton_self s)) hs ht⟩
    · obtain ⟨q, hq, haround, hreads⟩ := hpassed p hp
      exact ⟨q, hq, haround, .part hreads hs ht⟩

/-- What is being built when the schema at the end of a way is. -/
theorem exists_around (h : Trail doc roots s active) (hnew : s.pointer ∉ active) {p : String}
    (hp : p ∈ s.pointer :: active) : ∃ q : SchemaPlace, q.pointer = p ∧ Around doc roots q s := by
  obtain ⟨hself, hpassed⟩ := h.readsAround hnew
  rcases List.mem_cons.1 hp with rfl | hp
  · exact ⟨s, rfl, hself, .root (List.mem_singleton_self s)⟩
  · obtain ⟨q, hq, haround, hreads⟩ := hpassed p hp
    exact ⟨q, hq, haround, hreads⟩

end Trail

/-! ### What resolving fails with -/

/-- `m` is a member of the composition at `s`. -/
def Member (s m : SchemaPlace) : Prop :=
  ∃ raw, schemaEntries? s.schema = some raw ∧ raw.get? "$ref" = none ∧ raw.has "allOf" = true ∧
    m ∈ branchParts raw s.pointer "allOf"

/-- The faults of a run. All but two kinds tell what is wrong at one place. -/
inductive Failure (doc : Value) (roots : List SchemaPlace) : Fault → Prop
  | ofLocal {e : Fault} (h : e.isLocal = true) : Failure doc roots e
  | containsItself {s t q : SchemaPlace} (hs : Reads doc roots s) (ht : Inside doc s t)
      (hq : Around doc roots q s) (heq : q.pointer = t.pointer) :
      Failure doc roots (.schema t.pointer .containsItself)
  | stillComposing {s m q : SchemaPlace} (hs : Reads doc roots s) (hm : Member s m)
      (hq : Around doc roots q s)
      (hpath : Relation.TransGen (Refers doc roots) m.pointer q.pointer) :
      Failure doc roots (.schema s.pointer (.stillComposing m.pointer q.pointer))

theorem Failure.ne_exhausted {e : Fault} (h : Failure doc roots e) : e ≠ .exhausted := by
  cases h with
  | ofLocal h => exact Fault.ne_exhausted e h
  | containsItself hs ht hq heq => exact nofun
  | stillComposing hs hm hq hpath => exact nofun

end OpenApi.Resolve
