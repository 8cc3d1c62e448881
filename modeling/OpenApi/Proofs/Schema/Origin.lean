import Mathlib.Logic.Relation
import OpenApi.Proofs.Schema.Shape

/-!
Where the nodes of a table come from: each is made of a schema that is read at its place, or is the
union of the listed items of one. What holds of all nodes whatever the order in which they were made
follows from here.
-/
namespace OpenApi.Resolve

variable {raw : Entries} {pointer : String}

/-- The types that stand in a schema. -/
def StatesType (raw : Entries) (type : Value) : Prop :=
  type = .str "null" ∨ type = found raw "type" ∨
    ∃ types, found raw "type" = .list types ∧ type ∈ types

/-- The ids of the properties of a plain schema. -/
def propertyIds (raw : Entries) (pointer : String) : Form → List String
  | .object => (propertyParts raw pointer).map (·.pointer)
  | _ => []

def itemsId (raw : Entries) (pointer : String) : Form → Option String
  | .array => if (found raw "items").isNull then none else some (Pointer.child pointer "items")
  | _ => none

/-- What a mapping or a truth value under `additionalProperties` comes to. -/
def additionalPlace (raw : Entries) (pointer : String) : Additional String :=
  match found raw "additionalProperties" with
  | .map _ => .schema (Pointer.child pointer "additionalProperties")
  | .bool b => .flag b
  | _ => .unspecified

def additionalId (raw : Entries) (pointer : String) : Form → Additional String
  | .object => additionalPlace raw pointer
  | _ => .unspecified

/-- What is certain of the node of a schema of one type. -/
structure Single (setting : Setting) (raw : Entries) (pointer : String) (n : Node) : Prop where
  id : n.id = pointer
  name : n.name = (common setting raw pointer .primitive).name
  kind : n.kind = .primitive ∨ n.kind = .object ∨ n.kind = .array ∨ n.kind = .enum
  target : n.target = none
  format : n.format = found raw "format"
  type : StatesType raw n.type ∨ ∃ s, n.type = .str s
  fragment : n.fragment = singleFragment raw (soleType raw)
  properties : n.properties.map (·.node) = propertyIds raw pointer (form raw)
  items : n.items = itemsId raw pointer (form raw)
  additional : n.additional = additionalId raw pointer (form raw)

/-- A node that is made of a schema without references and compositions. -/
inductive Plain (setting : Setting) (raw : Entries) (pointer : String) : Node → Prop
  | types (hseveral : severalTypes raw = true) (members : List String) : Plain setting raw pointer
      { common setting raw pointer .union with members, unionKeyword := some "type" }
  | single {n : Node} (hone : severalTypes raw = false) (h : Single setting raw pointer n) :
      Plain setting raw pointer n

/-- The node of a composition, from what its fragments are merged into. -/
def composed (setting : Setting) (raw : Entries) (pointer : String) (merged : Node)
    (discriminator : Option Discriminator) : Node :=
  let shared := common setting raw pointer .intersection
  { merged with
    name := shared.name
    title := if shared.title.isNull then merged.title else shared.title
    description := if shared.description.isNull then merged.description else shared.description
    declared := Attribute.all.filter fun a => merged.declared.contains a || shared.declared.contains a
    discriminator }

/-- The schema that is read at a place is a reference to another place. -/
def Refers (doc : Value) (roots : List SchemaPlace) (pointer target : String) : Prop :=
  ∃ s raw ref, Reads doc roots s ∧ s.pointer = pointer ∧ schemaEntries? s.schema = some raw ∧
    raw.get? "$ref" = some (.str ref) ∧ Pointer.normalize ref = .ok target

/-- References lead from a place to a node without a target. -/
structure LeadsTo (doc : Value) (roots : List SchemaPlace) (pointer : String) (n : Node) : Prop where
  path : Relation.ReflTransGen (Refers doc roots) pointer n.id
  target : n.target = none

/-- How a node comes about. `s` is what is read at its place and `raw` are the keywords there. -/
inductive Origin (setting : Setting) (roots : List SchemaPlace) : Node → Prop
  | tuple {place : String} (members : List String)
      (hplace : TuplesApart setting.doc roots → ¬ Entered setting.doc roots place) :
      Origin setting roots { id := place, kind := .union, members, unionKeyword := some "items" }
  | marker {s : SchemaPlace} {raw : Entries} (hs : Reads setting.doc roots s)
      (hraw : schemaEntries? s.schema = some raw) {ref target : String}
      (href : raw.get? "$ref" = some (.str ref)) (htarget : Pointer.normalize ref = .ok target) :
      Origin setting roots
      { common setting raw s.pointer .recursive with target := some target }
  | reference {s : SchemaPlace} {raw : Entries} (hs : Reads setting.doc roots s)
      (hraw : schemaEntries? s.schema = some raw) {ref target : String}
      (href : raw.get? "$ref" = some (.str ref)) (htarget : Pointer.normalize ref = .ok target) :
      Origin setting roots
      { common setting raw s.pointer .reference with target := some target }
  | union {s : SchemaPlace} {raw : Entries} (hs : Reads setting.doc roots s)
      (hraw : schemaEntries? s.schema = some raw) (hshape : shape raw = .union)
      (members : List String) (keyword : String) (discriminator : Option Discriminator) :
      Origin setting roots
      { common setting raw s.pointer .union with
        members, unionKeyword := some keyword, discriminator }
  | intersection {s t : SchemaPlace} {raw : Entries} {f : Node} (hs : Reads setting.doc roots s)
      (hraw : schemaEntries? s.schema = some raw) (hshape : shape raw = .composition)
      (ht : t ∈ branchParts raw s.pointer "allOf") (hf : Origin setting roots f)
      (hleads : LeadsTo setting.doc roots t.pointer f) (hcomposed : f.isComposed = true)
      (discriminator : Option Discriminator) : Origin setting roots
      { common setting raw s.pointer .intersection with
        members := (branchParts raw s.pointer "allOf").map (·.pointer), discriminator }
  | plain {s : SchemaPlace} {raw : Entries} {n : Node} (hs : Reads setting.doc roots s)
      (hraw : schemaEntries? s.schema = some raw) (hshape : shape raw = .plain)
      (h : Plain setting raw s.pointer n) : Origin setting roots n
  | merged {s : SchemaPlace} {raw : Entries} {stored : List Node} {beside : Option Node}
      {merged : Node} {schemas : List Value} (hs : Reads setting.doc roots s)
      (hraw : schemaEntries? s.schema = some raw) (hshape : shape raw = .composition)
      (hall : found raw "allOf" = .list schemas)
      (hstored : ∀ f ∈ stored, Origin setting roots f)
      (hleads : List.Forall₂ (fun t f => LeadsTo setting.doc roots t.pointer f)
        (branchParts raw s.pointer "allOf") stored)
      (hflat : ∀ f ∈ stored, f.isComposed = false)
      (hbeside : ∀ f ∈ beside, Plain setting (raw.without ["allOf"]) s.pointer f)
      (hpresent : beside.isSome = isStructural (raw.without ["allOf"]))
      (hmerged : Merge.merge setting.policy s.pointer (beside.toList ++ stored) = .ok merged)
      (discriminator : Option Discriminator) :
      Origin setting roots (composed setting raw s.pointer merged discriminator)

variable {setting : Setting} {roots : List SchemaPlace} {n : Node}

theorem Plain.id_eq (h : Plain setting raw pointer n) : n.id = pointer := by
  cases h with
  | types hseveral members => rfl
  | single hone h => exact h.id

theorem Plain.target_eq_none (h : Plain setting raw pointer n) : n.target = none := by
  cases h with
  | types hseveral members => rfl
  | single hone h => exact h.target

theorem Plain.fragment_eq (h : Plain setting raw pointer n) : n.fragment = plainFragment raw := by
  unfold plainFragment
  cases h with
  | types hseveral members =>
    rw [if_pos hseveral]
    rfl
  | single hone h =>
    rw [hone]
    exact h.fragment

theorem Plain.kind_ne (h : Plain setting raw pointer n) : n.kind ≠ .reference ∧ n.kind ≠ .recursive := by
  cases h with
  | types hseveral members => exact ⟨nofun, nofun⟩
  | single hone h => rcases h.kind with hk | hk | hk | hk <;> rw [hk] <;> exact ⟨nofun, nofun⟩

/-- Only references and markers have a target, and they all do. -/
theorem Origin.target_isSome_iff (h : Origin setting roots n) :
    n.target.isSome = true ↔ n.kind = .reference ∨ n.kind = .recursive := by
  cases h with
  | tuple members hplace => simp
  | marker hs hraw href htarget => simp [common]
  | reference hs hraw href htarget => simp [common]
  | union hs hraw hshape members keyword discriminator => simp [common]
  | intersection hs hraw hshape ht hf hleads hcomposed discriminator => simp [common]
  | plain hs hraw hshape h => simp [h.target_eq_none, h.kind_ne]
  | merged hs hraw hshape hall hstored hleads hflat hbeside hpresent hmerged discriminator =>
    have hm := Merge.merged_of_merge hmerged
    rcases hm.kind with hk | hk | hk | hk <;> simp [composed, hm.target, hk]

theorem Origin.isMarker_of_target (h : Origin setting roots n) (ht : n.target = none) :
    n.isMarker = false := by
  have hk : ¬ (n.kind = .reference ∨ n.kind = .recursive) := by
    rw [← h.target_isSome_iff, ht]
    simp
  simpa [Node.isMarker] using fun hr => hk (.inr hr)

/-- A node with a target is made of a reference to it. -/
theorem Origin.refers (h : Origin setting roots n) {target : String} (ht : n.target = some target) :
    Refers setting.doc roots n.id target := by
  cases h with
  | marker hs hraw href htarget =>
    obtain rfl := Option.some.inj ht
    exact ⟨_, _, _, hs, rfl, hraw, href, htarget⟩
  | reference hs hraw href htarget =>
    obtain rfl := Option.some.inj ht
    exact ⟨_, _, _, hs, rfl, hraw, href, htarget⟩
  | plain hs hraw hshape h =>
    rw [h.target_eq_none] at ht
    cases ht
  | merged hs hraw hshape hall hstored hleads hflat hbeside hpresent hmerged discriminator =>
    rw [show (composed setting _ _ _ discriminator).target = none from
      (Merge.merged_of_merge hmerged).target] at ht
    cases ht
  | _ => cases ht

end OpenApi.Resolve
