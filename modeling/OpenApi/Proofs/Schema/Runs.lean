import OpenApi.Proofs.Schema.Sources
import OpenApi.Proofs.Schema.Visiting

/-!
Whole runs. Where two ways to enter schemas agree on the places that a document holds schemas at, they
come to the same table or the same fault. Finding these places and checking the markers of the table
fails only for what is wrong at one place.
-/
namespace OpenApi

open Outcome (Agree Faults)

namespace SchemaTable
variable {table : SchemaTable}

theorem chase_local (hclosed : table.Closed) {fuel : Nat} {seen : List String} {n : Node}
    (hn : (n.id, n) ∈ table.nodes) (hpassed : table.Passed fuel seen) :
    Local (chase table fuel seen n) := by
  induction fuel generalizing seen n with
  | zero =>
    obtain ⟨rest, hrest⟩ := hpassed.exists_succ
    cases hrest
  | succ fuel ih =>
    unfold chase
    split
    · exact .ok
    · next target ht =>
      obtain ⟨next, hnext, hmem⟩ := hclosed.exists_target hn ht
      split
      · exact .error rfl
      · next hseen =>
        have hnew : n.id ∉ seen := fun hin => hseen (List.contains_iff_mem.2 hin)
        rw [hnext]
        exact ih hmem (hpassed.step (Assoc.mem_keys_of_mem hn) hnew)

/-- Following a marker of a closed table fails only if it leads in a circle. -/
theorem checkMarkers_local (hclosed : table.Closed) : Local table.checkMarkers := by
  refine .forM fun marker hmarker => ?_
  obtain ⟨⟨k, hk⟩, -⟩ := mem_markers_iff.1 hmarker
  have hid := hclosed.id_eq hk
  have hconcrete : Local (table.concrete marker.id) := by
    unfold concrete
    rw [hid, hclosed.node_id hk]
    exact chase_local hclosed (hid ▸ hk) (.start (by omega))
  dsimp only
  split
  · split
    · exact Faults.bind (.error rfl) nofun
    · exact hconcrete.bind fun _ _ => .ok
  · exact hconcrete.bind fun _ _ => .ok

end SchemaTable

namespace Resolve

variable {setting : Setting} {roots : List SchemaPlace} {visit visit' : Visit} {fault : Fault → Prop}

/-- Enters all places that a walk found, by `visit`. -/
def enterAllBy (visit : Visit) (places : List SchemaPlace) : Build (List String) := do
  let ids ← places.mapM fun place => visit place.schema place.pointer
  return Assoc.distinct ids

theorem enterAllBy_agree
    (h : ∀ s ∈ roots, Alike (Building setting roots []) fault visit' visit s) :
    Agree (Building setting roots []) (enterAllBy visit' roots) (enterAllBy visit roots)
      (fun _ => Building setting roots []) fault := by
  have hall : Agree (Building setting roots [])
      (roots.mapM fun place => visit' place.schema place.pointer)
      (roots.mapM fun place => visit place.schema place.pointer)
      (fun ids b => Building setting roots [] b ∧
        List.Forall₂ (fun (s : SchemaPlace) id => id = s.pointer) roots ids) fault :=
    .mapM h
  exact hall.bind fun ids => .pure fun _ hb => hb.1

end Resolve

open Resolve

/-- The table that a walk comes to, from the ids and the arena that entering its places gave. -/
def SchemaTable.collect (walk : Walk) (entered : List String × Arena) : Checked SchemaTable :=
  match walk.fault with
  | some fault => throw fault
  | none => do
    let table := { pointers := entered.2.pointers, nodes := entered.2.nodes, roots := entered.1 : SchemaTable }
    table.checkMarkers
    return table

/-- The table of all schemas of a document, where `visit` enters them. -/
def SchemaTable.ofDocumentBy (visit : Setting → Visit) (doc : Value) (policy : MergePolicy) :
    Checked SchemaTable := do
  let names ← componentNames doc
  let walk := SchemaPlaces.ofDocument doc names
  collect walk (← (enterAllBy (visit { doc, policy, names }) walk.found).run {})

theorem SchemaTable.ofDocument_eq (doc : Value) (policy : MergePolicy) :
    ofDocument doc policy =
      ofDocumentBy (fun setting => enter setting (depthBound setting.doc)) doc policy := rfl

/-- Ways to enter schemas that agree on the places of a document come to the same on the whole. -/
theorem SchemaTable.ofDocumentBy_agree {visit visit' : Setting → Visit} {doc : Value}
    {policy : MergePolicy} {fault : Fault → Prop} (hlocal : ∀ e, e.isLocal = true → fault e)
    (h : ∀ names, ∀ s ∈ rootPlaces doc,
      Alike (Building ⟨doc, policy, names⟩ (rootPlaces doc) []) fault (visit' ⟨doc, policy, names⟩)
        (visit ⟨doc, policy, names⟩) s) :
    ofDocumentBy visit' doc policy = ofDocumentBy visit doc policy ∧
      Faults fault (ofDocumentBy visit doc policy) := by
  unfold ofDocumentBy
  cases hnames : componentNames doc with
  | error e => exact ⟨rfl, .error (hlocal e (componentNames_local doc e hnames))⟩
  | ok names =>
    have hroots : rootPlaces doc = (SchemaPlaces.ofDocument doc names).found := by
      simp [rootPlaces, hnames]
    have hdraws := SchemaPlaces.ofDocument_draws doc names
    obtain ⟨heq, hfault, hpost⟩ := enterAllBy_agree (h names) {} ⟨.empty, rfl⟩
    rw [hroots] at heq hfault hpost
    refine ⟨congrArg (· >>= collect _) heq, ?_⟩
    have htable : ∀ entered, enterAllBy (visit ⟨doc, policy, names⟩)
        (SchemaPlaces.ofDocument doc names).found {} = .ok entered →
        Faults fault (collect (SchemaPlaces.ofDocument doc names) entered) := by
      intro entered hentered
      obtain ⟨hsound, hactive⟩ := hpost entered.1 entered.2 hentered
      unfold collect
      split
      · next e he => exact .error (hlocal e (hdraws.fault e he))
      · have hclosed : SchemaTable.Closed
            { pointers := entered.2.pointers, nodes := entered.2.nodes, roots := entered.1 } :=
          hsound.closed hactive rfl rfl
        exact ((checkMarkers_local hclosed).mono hlocal).bind fun _ _ => .ok
    exact hfault.bind htable

end OpenApi
