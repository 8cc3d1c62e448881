import OpenApi.Proofs.Schema.Chains
import OpenApi.Proofs.Types.Names

/-!
Mapping does not fail. Every schema of a document has a type, provided that its format is a text and its
type can be put into a message: chains of references end, schemas use only schemas that stand before
them, and markers lead to schemas that have names.
-/
namespace OpenApi

/-- The format is a text, if there is one, and the type can be put into a message. -/
def Showable (type format : Value) : Prop :=
  (format.isNull = true ∨ format.str?.isSome = true) ∧ type.inner?.isSome = true

instance (type format : Value) : Decidable (Showable type format) :=
  inferInstanceAs (Decidable (_ ∧ _))

/-! ### Types and formats of nodes -/

namespace Resolve

/-- Whatever is read as a schema has a type and a format that can be shown. -/
def Describable (doc : Value) (roots : List SchemaPlace) : Prop :=
  ∀ s raw, Reads doc roots s → schemaEntries? s.schema = some raw →
    Showable (found raw "type") (found raw "format")

theorem Covers.describable {doc : Value} {roots places : List SchemaPlace}
    (h : Covers doc roots places)
    (hall : ∀ s ∈ places, ∀ raw ∈ schemaEntries? s.schema,
      Showable (found raw "type") (found raw "format")) : Describable doc roots :=
  fun s raw hs hraw => hall s (h.mem hs) raw hraw

/-- All schemas of a document are read within some steps, listed items stand apart from them, and their types
and formats can be shown. -/
def WellRead (doc : Value) (steps : Nat) : Prop :=
  Covers doc (rootPlaces doc) (readWithin doc steps (rootPlaces doc)) ∧
    ApartAmong (readWithin doc steps (rootPlaces doc)) ∧
      ∀ s ∈ readWithin doc steps (rootPlaces doc), ∀ raw ∈ schemaEntries? s.schema,
        Showable (found raw "type") (found raw "format")

instance (doc : Value) (steps : Nat) : Decidable (WellRead doc steps) :=
  inferInstanceAs (Decidable (_ ∧ _ ∧ _))

theorem WellRead.tuplesApart {doc : Value} {steps : Nat} (h : WellRead doc steps) :
    TuplesApart doc (rootPlaces doc) := h.1.tuplesApart h.2.1

theorem WellRead.describable {doc : Value} {steps : Nat} (h : WellRead doc steps) :
    Describable doc (rootPlaces doc) := h.1.describable h.2.2

variable {setting : Setting} {roots : List SchemaPlace} {raw : Entries} {pointer : String} {n : Node}

theorem Plain.showable (hraw : Showable (found raw "type") (found raw "format"))
    (h : Plain setting raw pointer n) : Showable n.type n.format := by
  cases h with
  | types hseveral members => exact ⟨.inl rfl, rfl⟩
  | single hone h =>
    refine ⟨h.format ▸ hraw.1, ?_⟩
    rcases h.type with (ht | ht | ⟨types, htypes, hmem⟩) | ⟨s, ht⟩
    · rw [ht]
      rfl
    · rw [ht]
      exact hraw.2
    · -- one of several types
      exact Value.inner?_of_mem (htypes ▸ hraw.2) hmem
    · rw [ht]
      rfl

/-- Merging fragments makes no type or format that is worse than theirs. -/
theorem Origin.showable (hd : Describable setting.doc roots) (h : Origin setting roots n) :
    Showable n.type n.format := by
  induction h with
  | plain hs hraw hshape h => exact h.showable (hd _ _ hs hraw)
  | @merged s raw stored beside merged schemas hs hraw hshape hall hstored hleads hflat hbeside
      hpresent hmerged discriminator ih =>
    have hwithout : ∀ key, key ∉ ["allOf"] → found (raw.without ["allOf"]) key = found raw key := by
      intro key hkey
      unfold found
      rw [Entries.get?_without hkey]
    have hfragments : ∀ f ∈ beside.toList ++ stored, Showable f.type f.format := by
      intro f hf
      rcases List.mem_append.1 hf with hf | hf
      · apply (hbeside f (Option.mem_toList.1 hf)).showable
        rw [hwithout "type" (by decide), hwithout "format" (by decide)]
        exact hd _ _ hs hraw
      · exact ih f hf
    have hm := Merge.merged_of_merge hmerged
    change Showable merged.type merged.format
    constructor
    · rcases hm.format with hf | ⟨f, hf, heq⟩
      · rw [hf]
        exact .inl rfl
      · rw [heq]
        exact (hfragments f hf).1
    · rcases hm.type with ht | ⟨s, ht⟩ | ⟨f, hf, heq⟩
      · rw [ht]
        rfl
      · rw [ht]
        rfl
      · rw [heq]
        exact (hfragments f hf).2
  | _ => exact ⟨.inl rfl, rfl⟩

end Resolve

namespace Mapper
open Assoc (keys)
open Outcome (Faults Risks Succeeds bind_ok exists_ok)

variable {m : Mapper} {use : Use} {id : String} {n : Node}

/-! ### Schemas behind ids -/

section
variable (h : m.table.Followable)
include h

theorem exists_isNull (hid : id ∈ keys m.table.nodes) :
    ∃ b, m.isNull id = .ok b := by
  obtain ⟨c, hc, -⟩ := h.exists_concrete hid
  exact ⟨_, bind_ok.2 ⟨c, hc, rfl⟩⟩

theorem exists_anyNull {ids : List String}
    (hids : ∀ id ∈ ids, id ∈ keys m.table.nodes) : ∃ b, m.anyNull ids = .ok b := by
  induction ids with
  | nil => exact ⟨false, rfl⟩
  | cons id rest ih =>
    obtain ⟨hid, hrest⟩ := List.forall_mem_cons.1 hids
    obtain ⟨b, hb⟩ := exists_isNull h hid
    obtain ⟨b', hb'⟩ := ih hrest
    cases b with
    | true => exact ⟨true, bind_ok.2 ⟨true, hb, rfl⟩⟩
    | false => exact ⟨b', bind_ok.2 ⟨false, hb, hb'⟩⟩

theorem exists_firstNullable {fuel : Nat} {seen : List String}
    (hpassed : m.table.Passed fuel seen) (hn : (n.id, n) ∈ m.table.nodes) :
    ∃ c, m.firstNullable fuel seen n = .ok c ∧ (c.id, c) ∈ m.table.nodes := by
  induction fuel generalizing seen n with
  | zero =>
    obtain ⟨_, hzero⟩ := hpassed.exists_succ
    omega
  | succ fuel ih =>
    rw [firstNullable]
    split
    · exact ⟨n, rfl, hn⟩
    · cases ht : n.target with
      | none => exact ⟨n, rfl, hn⟩
      | some target =>
        dsimp only
        split
        · exact ⟨n, rfl, hn⟩
        · next hseen =>
          obtain ⟨next, hnext, hmem⟩ := h.closed.exists_target hn ht
          have hnew : n.id ∉ seen := by simpa using hseen
          obtain ⟨c, hc, hcmem⟩ := ih (hpassed.step (Assoc.mem_keys_of_mem hn) hnew) hmem
          exact ⟨c, bind_ok.2 ⟨next, hnext, hc⟩, hcmem⟩

theorem exists_acceptsNull (hid : id ∈ keys m.table.nodes) :
    ∃ b, m.acceptsNull id = .ok b := by
  obtain ⟨n, hn, -⟩ := SchemaTable.exists_node hid
  have hstart : m.table.Passed (m.table.nodes.length + 2) [] := .start (by omega)
  obtain ⟨c, hc, hcmem⟩ := exists_firstNullable h hstart (h.closed.mem_of_node hn)
  have hmembers : ∀ id ∈ c.members, id ∈ keys m.table.nodes := fun id hmem =>
    h.closed.mentions hcmem id (Node.member_mem_mentions hmem)
  obtain ⟨b, hb⟩ := exists_anyNull h hmembers
  suffices hrest : ∃ b, (if c.nullable = true then pure true
      else if (c.kind == .union) = true then m.anyNull c.members
      else pure (isNullNode c) : Checked Bool) = .ok b by
    obtain ⟨b, hb⟩ := hrest
    exact ⟨b, bind_ok.2 ⟨n, hn, bind_ok.2 ⟨c, hc, hb⟩⟩⟩
  split
  · exact ⟨true, rfl⟩
  · split
    · exact ⟨b, hb⟩
    · exact ⟨_, rfl⟩

end

/-! ### Each kind of schema -/

/-- Faults of which mapping meets no others. -/
structure Confines (P : Fault → Prop) (m : Mapper) : Prop where
  follow : m.table.Followable
  type : ∀ {id n}, (id, n) ∈ m.table.nodes → Faults P n.type.inner
  format : ∀ {id n}, (id, n) ∈ m.table.nodes → ∀ format, n.format = .scalar format → Faults P format.inner
  kind : ∀ {id n}, (id, n) ∈ m.table.nodes → (∀ format, n.format ≠ .scalar format) → P .wrongKind
  target : ∀ {id n}, (id, n) ∈ m.table.nodes → n.kind = .reference ∨ n.kind = .recursive →
    n.target = none → P .wrongKind
  marker : ∀ {id n}, (id, n) ∈ m.table.nodes → n.isMarker = true → ∀ target ∈ n.target,
    m.names.lookup target = none → P (.schema n.id (.targetWithoutName target))

section
variable {P : Fault → Prop} (h : m.Confines P)
include h

theorem ofFormat_risks (hn : (id, n) ∈ m.table.nodes) {type : String}
    {known? : String → Option Primitive} {fallback : Primitive} :
    Risks P (ofFormat n type known? fallback) := by
  unfold ofFormat
  split
  · exact .pure
  · next format _ hformat =>
    split
    · exact .pure
    · exact (Risks.lift (h.format hn format hformat)).bind fun _ =>
        (Risks.modify.bind fun _ => .pure).bind fun _ => .pure
  · next _ hscalar => exact .throw (h.kind hn hscalar)

theorem primitive_risks (hn : (id, n) ∈ m.table.nodes) : Risks P (primitive n) := by
  unfold primitive
  split
  · exact .pure
  · exact .pure
  · exact .pure
  · exact .pure
  · exact ofFormat_risks h hn
  · exact ofFormat_risks h hn
  · exact (Risks.lift (h.type hn)).bind fun _ => (Risks.modify.bind fun _ => .pure).bind fun _ => .pure

theorem field_risks {p : Property} (hp : p.node ∈ keys m.table.nodes) (huse : Risks P (use p.node)) :
    Risks P (m.field use p) := by
  obtain ⟨nullable, hnullable⟩ := exists_acceptsNull h.follow hp
  obtain ⟨c, hc, -⟩ := h.follow.exists_concrete hp
  obtain ⟨n, hn, -⟩ := SchemaTable.exists_node hp
  exact .lift_bind hnullable (.lift_bind hc (huse.bind fun type => .lift_bind hn .pure))

omit h in
theorem additional_risks {a : Additional String} (huse : ∀ id ∈ a.toList, Risks P (use id)) :
    Risks P (additional use a) := by
  cases a with
  | unspecified => exact .pure
  | flag b => exact .pure
  | schema id => exact (huse id (List.mem_singleton_self id)).bind fun _ => .pure

theorem target_risks (hn : (id, n) ∈ m.table.nodes) (hkind : n.kind = .reference ∨ n.kind = .recursive)
    (huse : n.isMarker = false → ∀ target ∈ n.target, Risks P (use target)) :
    Risks P (m.target use n) := by
  unfold Mapper.target
  cases ht : n.target with
  | none => exact .throw (h.target hn hkind ht)
  | some target =>
    dsimp only
    cases hlookup : m.names.lookup target with
    | some name => exact .pure
    | none =>
      dsimp only
      split
      · next hmark => exact .throw_bind (h.marker hn hmark target ht hlookup)
      · next hmark => exact huse (Bool.eq_false_iff.2 hmark) target ht

theorem unionMembers_risks {ids : List String} (hids : ∀ id ∈ ids, id ∈ keys m.table.nodes)
    (huse : ∀ id ∈ ids, Risks P (use id)) : Risks P (m.unionMembers use ids) := by
  induction ids with
  | nil => exact .pure
  | cons id rest ih =>
    obtain ⟨hid, hrest⟩ := List.forall_mem_cons.1 hids
    obtain ⟨huse, huses⟩ := List.forall_mem_cons.1 huse
    obtain ⟨isNull, hnull⟩ := exists_isNull h.follow hid
    refine .lift_bind hnull ?_
    dsimp only
    split
    · exact (ih hrest huses).bind fun _ => .pure
    · exact huse.bind fun _ => (ih hrest huses).bind fun _ => .pure

/-- Markers aside, a schema risks what the places that it mentions do. -/
theorem node_risks (hn : (id, n) ∈ m.table.nodes)
    (huse : n.isMarker = false → ∀ j ∈ n.mentions, Risks P (use j)) : Risks P (m.node use n) := by
  have hmem : ∀ j ∈ n.mentions, j ∈ keys m.table.nodes := h.follow.closed.mentions hn
  have hmembers : ∀ j ∈ n.members, j ∈ n.mentions := fun j hj => Node.member_mem_mentions hj
  have htarget : n.kind = .reference ∨ n.kind = .recursive → Risks P (m.target use n) :=
    fun hkind => target_risks h hn hkind fun hmark j hj => huse hmark j (Node.target_mem_mentions hj)
  unfold node
  cases hkind : n.kind with
  | reference => exact (htarget (.inl hkind)).bind fun _ => .pure
  | recursive => exact (htarget (.inr hkind)).bind fun _ => .pure
  | union =>
    have huse := huse (by simp [Node.isMarker, hkind])
    exact (unionMembers_risks h (fun j hj => hmem j (hmembers j hj))
      fun j hj => huse j (hmembers j hj)).bind fun _ => .pure
  | object =>
    have huse := huse (by simp [Node.isMarker, hkind])
    have hfields : Risks P (n.properties.mapM (m.field use)) := by
      refine .mapM fun p hp => ?_
      have hmention : p.node ∈ n.mentions := Node.property_mem_mentions hp
      exact field_risks h (hmem _ hmention) (huse _ hmention)
    refine hfields.bind fun _ => (additional_risks fun j hj => ?_).bind fun _ => .pure
    exact huse j (Node.additional_mem_mentions hj)
  | array =>
    have huse := huse (by simp [Node.isMarker, hkind])
    dsimp only
    cases hitems : n.items with
    | none => exact Risks.pure.bind fun _ => .pure
    | some j =>
      dsimp only
      split
      · exact Risks.pure.bind fun _ => .pure
      · exact (huse j (Node.items_mem_mentions hitems)).bind fun _ => .pure
  | enum => exact (primitive_risks h hn).bind fun _ => .pure
  | intersection =>
    have huse := huse (by simp [Node.isMarker, hkind])
    exact (Risks.mapM fun j hj => huse j (hmembers j hj)).bind fun _ => .pure
  | primitive => exact (primitive_risks h hn).bind fun _ => .pure

/-! ### All schemas -/

omit h in
theorem useWith_risks {structural : Use} (h : Risks P (structural id)) : Risks P (m.useWith structural id) := by
  unfold useWith
  split
  · exact .pure
  · exact h

/-- The fuel lasts where a schema uses only schemas that stand before it. -/
theorem mapWithin_risks {fuel : Nat} (hid : id ∈ keys m.table.nodes)
    (hfuel : P .exhausted ∨ m.table.InOrder ∧ m.table.position id < fuel) : Risks P (m.mapWithin fuel id) := by
  induction fuel generalizing id with
  | zero =>
    rcases hfuel with hfault | ⟨-, hlt⟩
    · exact .throw hfault
    · omega
  | succ fuel ih =>
    obtain ⟨n, hn, hmem⟩ := SchemaTable.exists_node hid
    have hnode : Risks P (m.node (m.useWith (m.mapWithin fuel)) n) := by
      refine node_risks h hmem fun hmark j hj => useWith_risks (ih (h.follow.closed.mentions hmem j hj) ?_)
      refine hfuel.imp_right fun ⟨horder, hlt⟩ => ⟨horder, ?_⟩
      have hearlier := horder.earlier hmem hmark j hj
      omega
    refine Risks.get.bind fun s => ?_
    split
    · exact .pure
    · exact .lift_bind hn (hnode.bind fun _ => Risks.modify.bind fun _ => .pure)

end

/-- What it takes for mapping to succeed. -/
structure Complete (m : Mapper) : Prop where
  follow : m.table.Followable
  order : m.table.InOrder
  showable : ∀ {id n}, (id, n) ∈ m.table.nodes → Showable n.type n.format
  target : ∀ {id n}, (id, n) ∈ m.table.nodes → n.kind = .reference ∨ n.kind = .recursive →
    n.target.isSome = true
  marker_named : ∀ {id n}, (id, n) ∈ m.table.nodes → n.isMarker = true →
    ∀ target ∈ n.target, target ∈ keys m.names
  name_mem : ∀ id ∈ keys m.names, id ∈ keys m.table.nodes

theorem Complete.confines (h : m.Complete) : m.Confines fun _ => False where
  follow := h.follow
  type hn := by
    obtain ⟨text, htext⟩ := Option.isSome_iff_exists.1 (h.showable hn).2
    rw [Value.inner, htext]
    exact .ok
  format hn format hformat := by
    -- an unknown format is a text, which a message can quote
    have hshown := (h.showable hn).1
    rw [hformat] at hshown
    cases format with
    | null => exact .ok
    | str s => exact .ok
    | _ => simp [Value.isNull, Value.str?] at hshown
  kind {_ n} hn hscalar := by
    have hshown := (h.showable hn).1
    cases hformat : n.format with
    | scalar format => exact hscalar format hformat
    | list items => simp [hformat, Value.isNull, Value.str?] at hshown
    | map entries => simp [hformat, Value.isNull, Value.str?] at hshown
  target hn hkind hnone := by
    have hsome := h.target hn hkind
    rw [hnone] at hsome
    cases hsome
  marker hn hmark target ht hlookup :=
    Assoc.lookup_eq_none_iff.1 hlookup (h.marker_named hn hmark target ht)

theorem useWith_succeeds {structural : Use} (h : Succeeds (structural id)) :
    Succeeds (m.useWith structural id) :=
  .of_risks (useWith_risks h.risks)

theorem mapType_succeeds (h : m.Complete) (hid : id ∈ keys m.table.nodes) :
    Succeeds (m.mapType id) := by
  have hlt : m.table.position id < (keys m.table.nodes).length := List.idxOf_lt_length_of_mem hid
  have hlength : (keys m.table.nodes).length = m.table.nodes.length := List.length_map ..
  exact .of_risks (mapWithin_risks h.confines hid (.inr ⟨h.order, by omega⟩))

theorem namedTypes_risks {P : Fault → Prop} (h : ∀ id ∈ keys m.names, Risks P (m.mapType id)) :
    Risks P m.namedTypes := by
  refine Risks.bind (.mapM fun e he => ?_) fun _ => .pure
  exact (h e.1 (Assoc.mem_keys_of_mem he)).bind fun _ => .pure

theorem namedTypes_succeeds (h : m.Complete) : Succeeds m.namedTypes :=
  .of_risks (namedTypes_risks fun id hid => (mapType_succeeds h (h.name_mem id hid)).risks)

/-! ### The schemas of a document -/

open Resolve (Setting Arena Completed TuplesApart Describable NamedSchemas NamesApart rootPlaces)

variable {setting : Setting} {a : Arena} {table : SchemaTable}

theorem Names.mem_keys_of_marker (h : m.Names table) (hclosed : table.Closed)
    (hn : (id, n) ∈ table.nodes) (hmark : n.isMarker = true) {target : String}
    (ht : target ∈ n.target) : target ∈ keys m.names := by
  apply h.target
  · exact hclosed.mentions hn target (Node.target_mem_mentions ht)
  · rw [h.recursive_eq]
    exact List.mem_filterMap.2 ⟨n, SchemaTable.mem_markers_iff.2 ⟨⟨id, hn⟩, hmark⟩, ht⟩

theorem complete_of_names (hc : Completed setting a table)
    (htuples : TuplesApart setting.doc (rootPlaces setting.doc))
    (hshown : Describable setting.doc (rootPlaces setting.doc)) (h : m.Names table) :
    m.Complete := by
  obtain rfl := h.table_eq
  have horigin : ∀ {id n}, (id, n) ∈ m.table.nodes →
      Resolve.Origin setting (rootPlaces setting.doc) n :=
    fun hn => hc.sound.origin (hc.nodes ▸ hn)
  constructor
  case follow => exact hc.followable
  case order => exact hc.inOrder htuples
  case showable => exact fun hn => (horigin hn).showable hshown
  case target => exact fun hn => (horigin hn).target_isSome_iff.2
  case marker_named => exact fun hn hmark target => h.mem_keys_of_marker hc.closed hn hmark
  case name_mem => exact h.mem

/-- Trees whose children are listed by a schema that has no name and refers to itself. -/
def trees : Value :=
  .record [("components", .record [("schemas", .record [
    ("Tree", .record [("properties", .record [
      ("children", .record [("type", .str "array"),
        ("items", .record [("$ref", .str "#/components/schemas/Tree/properties/children")])]),
      ("color", .record [("type", .list [.str "string", .str "null"]), ("format", .str "rgb")])])]),
    ("Plant", .record [("$ref", .str "#/components/schemas/Tree")])])])]

/-- A schema whose name is null. -/
def nameless : Value :=
  .record [("components", .record [("schemas", .map [(.null, .record [("type", .str "string")])])])]

/-- The items that `Pair` lists for its first type stand where `First` finds a schema, and refer to
that place. -/
def looped : Value :=
  .record [("components", .record [("schemas", .record [
    ("First", .record [("$ref", .str "#/components/schemas/Pair/type/0/items")]),
    ("Pair", .record [
      ("type", .list [.record [("items", .record [("type", .str "string")])], .str "array"]),
      ("items", .list [.record [("$ref", .str "#/components/schemas/Pair/type/0/items")]])])])])]

/-- The union of the items replaces the schema, and mapping it does not come to an end. -/
theorem looped_namedTypes : ∃ table m, SchemaTable.ofDocument looped .lastWins = .ok table ∧
    ofTable table = .ok m ∧ ¬ Succeeds m.namedTypes := by
  have hok : ∃ table ∈ (SchemaTable.ofDocument looped .lastWins).toOption,
      ∃ m ∈ (ofTable table).toOption, (m.namedTypes.run.run {}).1.toOption.isNone = true := by
    decide +kernel
  obtain ⟨table, htable, hok⟩ := exists_ok.2 hok
  obtain ⟨m, hm, hnone⟩ := exists_ok.2 hok
  refine ⟨table, m, htable, hm, fun hsucceeds => ?_⟩
  obtain ⟨types, st, htypes⟩ := hsucceeds {}
  rw [htypes] at hnone
  cases hnone

end Mapper
end OpenApi
