import OpenApi.Proofs.Schema.WellFormed

/-!
The named schemas of a document. Each is entered at a place of its own, and the node there has the name
of the schema unless it stands for listed items.
-/
namespace OpenApi

/-! ### Walks that met no fault -/

namespace Walk
variable {α : Type}

theorem append_of_fault {a b : Walk} (h : (a ++ b).fault = none) :
    a.fault = none ∧ b.fault = none ∧ (a ++ b).found = a.found ++ b.found := by
  change (append a b).fault = none at h
  change _ ∧ _ ∧ (append a b).found = _
  unfold append at h ⊢
  cases ha : a.fault with
  | some fault =>
    rw [ha] at h
    cases h
  | none =>
    rw [ha] at h
    exact ⟨rfl, h, rfl⟩

theorem each_of_fault {items : List α} {walk : α → Walk} (h : (each items walk).fault = none)
    {x : α} (hx : x ∈ items) :
    (walk x).fault = none ∧ ∀ s ∈ (walk x).found, s ∈ (each items walk).found := by
  induction items with
  | nil => cases hx
  | cons y rest ih =>
    obtain ⟨hy, hrest, hfound⟩ := append_of_fault (show (walk y ++ each rest walk).fault = none from h)
    change _ ∧ ∀ s ∈ _, s ∈ (walk y ++ each rest walk).found
    rw [hfound]
    rcases List.mem_cons.1 hx with rfl | hx
    · exact ⟨hy, fun s hs => List.mem_append_left _ hs⟩
    · obtain ⟨hfault, hmem⟩ := ih hrest hx
      exact ⟨hfault, fun s hs => List.mem_append_right _ (hmem s hs)⟩

theorem after_of_fault {a : Checked α} {walk : α → Walk} (h : (after a walk).fault = none) :
    ∃ x, a = .ok x ∧ after a walk = walk x := by
  cases a with
  | error fault => cases h
  | ok x => exact ⟨x, rfl, rfl⟩

end Walk

theorem Value.exists_scalar_of_item {v key x : Value} (h : v.item key = .ok x) :
    ∃ s, key = .scalar s := by
  unfold Value.item at h
  split at h
  · exact ⟨_, rfl⟩
  · exact ⟨_, rfl⟩
  · exact ⟨_, rfl⟩
  · cases h

namespace Resolve
open Assoc (keys)

variable {setting : Setting} {roots : List SchemaPlace} {n : Node} {name : Scalar} {a : Arena}
  {table : SchemaTable}

/-! ### Names of nodes -/

/-- No two named schemas have the same name. -/
def NamesApart (doc : Value) : Prop :=
  ∀ names ∈ (componentNames doc).toOption, ∀ e ∈ names, ∀ f ∈ names,
    e.2.same f.2 = true → e.1 = f.1

instance (doc : Value) : Decidable (NamesApart doc) :=
  inferInstanceAs (Decidable (∀ names ∈ (componentNames doc).toOption, _))

/-- No named schema has a name without content. -/
def NamesWorded (doc : Value) : Prop :=
  ∀ names ∈ (componentNames doc).toOption, ∀ e ∈ names, e.2 = .null ∨ e.2.truthy = true

instance (doc : Value) : Decidable (NamesWorded doc) :=
  inferInstanceAs (Decidable (∀ names ∈ (componentNames doc).toOption, _))

/-- The name that a place gives to its schema. -/
def placeName (setting : Setting) (pointer : String) : Option Scalar :=
  (setting.names.lookup pointer).bind fun
    | .scalar .null => none
    | .scalar name => some name
    | _ => none

theorem placeName_eq_some_iff {pointer : String} :
    placeName setting pointer = some name ↔
      setting.names.lookup pointer = some (.scalar name) ∧ name ≠ .null := by
  unfold placeName
  rw [Option.bind_eq_some_iff]
  constructor
  · rintro ⟨v, hv, h⟩
    split at h
    · cases h
    · next hnull =>
      cases h
      exact ⟨hv, fun heq => hnull heq⟩
    · cases h
  · rintro ⟨hv, hnull⟩
    refine ⟨_, hv, ?_⟩
    cases name with
    | null => exact absurd rfl hnull
    | _ => rfl

/-- A node has the name of its place, unless it stands for listed items. -/
theorem Origin.name_cases (h : Origin setting roots n) : n.name = placeName setting n.id ∨
    n.name = none ∧ (TuplesApart setting.doc roots → ¬ Entered setting.doc roots n.id) := by
  cases h with
  | tuple members hplace => exact .inr ⟨rfl, hplace⟩
  | plain hs hraw hshape h =>
    left
    rw [h.id_eq]
    cases h with
    | types hseveral members => rfl
    | single hone h => exact h.name
  | merged hs hraw hshape hall hstored hleads hflat hbeside hpresent hmerged discriminator =>
    left
    rw [show (composed setting _ _ _ discriminator).id = _ from (Merge.merged_of_merge hmerged).id]
    rfl
  | _ => exact .inl rfl

/-! ### Places of named schemas -/

/-- Every named schema is a schema, and its name is not null. -/
def NamedSchemas (doc : Value) : Prop :=
  ∀ names ∈ (componentNames doc).toOption, (∀ e ∈ names, e.2 ≠ .null) ∧
    ∀ s ∈ (SchemaPlaces.ofNames doc names).found, (schemaEntries? s.schema).isSome = true

instance (doc : Value) : Decidable (NamedSchemas doc) :=
  inferInstanceAs (Decidable (∀ names ∈ (componentNames doc).toOption, _))

theorem nodup_componentNames {doc : Value} {names : List (String × Value)}
    (h : componentNames doc = .ok names) : (keys names).Nodup := by
  obtain ⟨home, -, h⟩ := Outcome.bind_ok.1 h
  obtain ⟨held, -, h⟩ := Outcome.bind_ok.1 h
  obtain ⟨elements, -, h⟩ := Outcome.bind_ok.1 h
  have hstart : (keys ([] : List (String × Value))).Nodup := List.nodup_nil
  refine Outcome.foldlM_inv (fun acc => (keys acc).Nodup) ?_ hstart h
  intro acc name _ acc' hacc hstep
  obtain ⟨text, -, rfl⟩ := Outcome.bind_pure_ok.1 hstep
  exact Assoc.nodup_keys_insert _ _ hacc

/-- The place of a named schema is one of those that a document holds schemas at. -/
theorem Completed.exists_place (hc : Completed setting a table) {pointer : String} {v : Value}
    (h : (pointer, v) ∈ setting.names) : (∃ name, v = .scalar name) ∧
      ∃ s ∈ (SchemaPlaces.ofNames setting.doc setting.names).found,
        s.pointer = pointer ∧ s ∈ rootPlaces setting.doc := by
  have hroots : rootPlaces setting.doc =
      (SchemaPlaces.ofDocument setting.doc setting.names).found := by simp [rootPlaces, hc.names]
  obtain ⟨hfault, -, hfound⟩ := Walk.append_of_fault hc.fault
  obtain ⟨hnames, -, hfound'⟩ := Walk.append_of_fault hfault
  obtain ⟨hfault, hmem⟩ := Walk.each_of_fault hnames h
  obtain ⟨schema, hitem, hwalk⟩ := Walk.after_of_fault hfault
  obtain ⟨held, -, hitem⟩ := Outcome.bind_ok.1 hitem
  have hplace : { pointer, schema } ∈ (SchemaPlaces.ofNames setting.doc setting.names).found := by
    apply hmem
    dsimp only
    rw [hwalk]
    exact List.mem_singleton_self _
  refine ⟨Value.exists_scalar_of_item hitem, _, hplace, rfl, ?_⟩
  rw [hroots, SchemaPlaces.ofDocument, hfound, hfound']
  exact List.mem_append_left _ (List.mem_append_left _ hplace)

end Resolve
end OpenApi
