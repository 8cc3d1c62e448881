import OpenApi.Proofs.Operation.Places
import OpenApi.Proofs.Wire.Gathered
import OpenApi.Proofs.Wire.Verdict

/-!
The parameters of a document. Their schemas have types, the named types that these reach can be gathered,
and so each parameter gets a wire format or a refusal, unless the question whether a type is a scalar comes
back to itself.
-/
namespace OpenApi

open Assoc (keys)
open Outcome (Faults Succeeds exists_ok ran_bind_of_ok)

namespace Parameter

variable {p : Parameter} {m : Mapper} {st : MapState}

/-- The type of a parameter that no media type describes, and the named types that it reaches. -/
def HasType (p : Parameter) (m : Mapper) (st : MapState) (type : Descriptor) (types : NamedTypes) : Prop :=
  ∃ id st₁ st₂, p.contentType = none ∧ p.schema = some id ∧
    (m.mapUse id).run.run st = (.ok type, st₁) ∧ (m.typesWithin type).run.run st₁ = (.ok types, st₂)

/-- The check of a parameter comes to a type for which there is no answer. -/
def Unending (p : Parameter) (m : Mapper) (st : MapState) : Prop :=
  ∃ type types, p.HasType m st type types ∧ p.Endless types type

theorem HasType.unique {type type' : Descriptor} {types types' : NamedTypes}
    (h : p.HasType m st type types) (h' : p.HasType m st type' types') : type = type' ∧ types = types' := by
  obtain ⟨id, st₁, st₂, -, hid, htype, htypes⟩ := h
  obtain ⟨id', st₁', st₂', -, hid', htype', htypes'⟩ := h'
  cases hid.symm.trans hid'
  cases htype.symm.trans htype'
  cases htypes.symm.trans htypes'
  exact ⟨rfl, rfl⟩

theorem HasType.unending_iff {type : Descriptor} {types : NamedTypes} (h : p.HasType m st type types) :
    p.Unending m st ↔ p.Endless types type := by
  constructor
  · rintro ⟨type', types', h', hendless⟩
    obtain ⟨rfl, rfl⟩ := h.unique h'
    exact hendless
  · exact fun hendless => ⟨type, types, h, hendless⟩

/-- A parameter with a type gets a wire format if its place allows its style and its type has a shape. -/
theorem HasType.codec_eq {type : Descriptor} {types : NamedTypes} (h : p.HasType m st type types) :
    ((p.codec m).run.run st).1 =
      if p.style.allows p.location then do
        return { parameter := p, shape := ← p.shape types type, type, types }
      else .error (.parameter p.place (.misplaced p.style p.location)) := by
  obtain ⟨id, st₁, st₂, hcontent, hid, htype, htypes⟩ := h
  unfold Parameter.codec
  rw [hcontent, hid]
  dsimp only
  cases hallows : p.style.allows p.location with
  | false => rfl
  | true =>
    rw [if_neg (by simp), if_pos rfl, ran_bind_of_ok htype, ran_bind_of_ok htypes]
    cases p.shape types type <;> rfl

/-- What it takes for a parameter to get a wire format or a refusal. -/
structure Ready (p : Parameter) (m : Mapper) (st : MapState) : Prop where
  complete : m.Complete
  worded : m.Worded
  quotable : m.Upholds Descriptor.Quotable
  linked : m.MemoLinked st
  quoted : Mapper.MemoHolds (fun _ => Descriptor.Quotable) st
  schema : ∀ id ∈ p.schema, id ∈ keys m.table.nodes

/-- What the type of a schema and the types that it reaches are like. -/
theorem Ready.exists_types (h : p.Ready m st) {id : String} (hid : id ∈ p.schema) :
    ∃ type types st₁ st₂, (m.mapUse id).run.run st = (.ok type, st₁) ∧
      (m.typesWithin type).run.run st₁ = (.ok types, st₂) ∧ types.Resolves type ∧
        (∀ e ∈ types, types.Resolves e.2) ∧ type.Quotable ∧ ∀ e ∈ types, e.2.Quotable := by
  have hsucceeds : Succeeds (m.mapUse id) :=
    Mapper.useWith_succeeds (Mapper.mapType_succeeds h.complete (h.schema id hid))
  obtain ⟨type, st₁, htype⟩ := hsucceeds st
  obtain ⟨hlinked, hlink⟩ := m.upholds_linked.mapUse id st type st₁ h.linked htype
  obtain ⟨hquoted, hquote⟩ := h.quotable.mapUse id st type st₁ h.quoted htype
  obtain ⟨types, st₂, htypes, hresolves, hall⟩ :=
    Mapper.exists_typesWithin h.complete h.worded hlinked hlink
  exact ⟨type, types, st₁, st₂, htype, htypes, hresolves, hall, hquote,
    (h.quotable.typesWithin type st₁ types st₂ hquoted htypes).2⟩

/-- A media type needs no shape. -/
theorem Ready.exists_codec_of_content (h : p.Ready m st) {content : Scalar}
    (hcontent : p.contentType = some content) : ∃ c, ((p.codec m).run.run st).1 = .ok c := by
  unfold Parameter.codec
  rw [hcontent]
  cases hid : p.schema with
  | some id =>
    obtain ⟨type, types, st₁, st₂, htype, htypes, -⟩ := h.exists_types hid
    dsimp only
    rw [ran_bind_of_ok htype, ran_bind_of_ok htypes]
    exact ⟨_, rfl⟩
  | none =>
    have hlinked : m.Linked .any := m.upholds_linked.any {}
    obtain ⟨types, st₁, htypes, -⟩ :=
      Mapper.exists_typesWithin h.complete h.worded h.linked hlinked
    have hany : (pure .any : Mapping Descriptor).run.run st = (.ok .any, st) := rfl
    dsimp only
    rw [ran_bind_of_ok hany, ran_bind_of_ok htypes]
    exact ⟨_, rfl⟩

/-- A parameter gets a wire format, unless it is refused or its check does not end. -/
theorem Ready.codec_cases (h : p.Ready m st) :
    (∃ c, ((p.codec m).run.run st).1 = .ok c) ∧ ¬ p.Unending m st ∨
      (∃ cause, ((p.codec m).run.run st).1 = .error (.parameter p.place cause)) ∨
        ((p.codec m).run.run st).1 = .error .exhausted ∧ p.Unending m st := by
  cases hcontent : p.contentType with
  | some content =>
    refine .inl ⟨h.exists_codec_of_content hcontent, ?_⟩
    rintro ⟨_, _, ⟨_, _, _, hnone, -⟩, -⟩
    cases hcontent.symm.trans hnone
  | none =>
    cases hid : p.schema with
    | none =>
      unfold Parameter.codec
      rw [hcontent, hid]
      exact .inr (.inl ⟨_, rfl⟩)
    | some id =>
      obtain ⟨type, types, st₁, st₂, htype, htypes, hresolves, hall, hquoted⟩ := h.exists_types hid
      have htyped : p.HasType m st type types := ⟨id, st₁, st₂, hcontent, hid, htype, htypes⟩
      rw [htyped.codec_eq, htyped.unending_iff]
      split
      · next hallows =>
        cases hshape : p.shape types type with
        | ok shape => exact .inl ⟨⟨_, rfl⟩, not_endless_of_shape hallows hshape⟩
        | error f =>
          rcases shape_faults hall hresolves hquoted f hshape with ⟨cause, rfl⟩ | ⟨rfl, hendless⟩
          · exact .inr (.inl ⟨cause, rfl⟩)
          · exact .inr (.inr ⟨rfl, hendless⟩)
      · exact .inr (.inl ⟨_, rfl⟩)

open Resolve (TuplesApart Describable NamesWorded rootPlaces)

theorem ready_of_document {doc : Value} {policy : MergePolicy} {table : SchemaTable}
    {ops : List Operation} {op : Operation} (hops : (Operation.parseAll doc).result = .ok ops)
    (htable : SchemaTable.ofDocument doc policy = .ok table) (hm : Mapper.ofTable table = .ok m)
    (htuples : TuplesApart doc (rootPlaces doc)) (hshown : Describable doc (rootPlaces doc))
    (hworded : NamesWorded doc) (hst : m.Reached st) (hop : op ∈ ops) (hp : p ∈ op.parameters) :
    p.Ready m st := by
  obtain ⟨names, a, hc⟩ := SchemaTable.ofDocument_ok htable
  have hquotable := Mapper.upholds_quotable htable hm
  have hnames := Mapper.ofTable_names hc hm
  obtain rfl := hnames.table_eq
  refine ⟨Mapper.complete_of_names hc htuples hshown hnames, Mapper.worded_ofTable hc hworded hm, hquotable,
    m.upholds_linked.reached hst, hquotable.reached hst, fun id hid => ?_⟩
  -- the walk has met no fault, so it came to the place
  obtain ⟨s, hs, rfl⟩ := Operation.parseAll_meets_parameter hops hop hp hid hc.fault
  apply hc.root_mem
  rw [Resolve.rootPlaces, hc.names]
  exact hs

/-- Making the wire format of a parameter comes to an end with the format or a refusal, whatever circles the
types make, unless a union that is asked whether it is a scalar asks itself. Such a parameter gets no
format. -/
theorem codec_settles {doc : Value} {policy : MergePolicy} {table : SchemaTable} {ops : List Operation}
    {op : Operation} (hops : (Operation.parseAll doc).result = .ok ops)
    (htable : SchemaTable.ofDocument doc policy = .ok table) (hm : Mapper.ofTable table = .ok m)
    (htuples : TuplesApart doc (rootPlaces doc)) (hshown : Describable doc (rootPlaces doc))
    (hworded : NamesWorded doc) (hst : m.Reached st) (hop : op ∈ ops) (hp : p ∈ op.parameters) :
    (¬ p.Unending m st → (∃ c, ((p.codec m).run.run st).1 = .ok c) ∨
        ∃ cause, ((p.codec m).run.run st).1 = .error (.parameter p.place cause)) ∧
      (p.Unending m st → ((p.codec m).run.run st).1 = .error .exhausted ∨
        ∃ cause, ((p.codec m).run.run st).1 = .error (.parameter p.place cause)) := by
  have hready := ready_of_document hops htable hm htuples hshown hworded hst hop hp
  rcases hready.codec_cases with ⟨hok, hends⟩ | hrefused | ⟨hexhausted, hunending⟩
  · exact ⟨fun _ => .inl hok, fun hunending => absurd hunending hends⟩
  · exact ⟨fun _ => .inr hrefused, fun _ => .inr hrefused⟩
  · exact ⟨fun hends => absurd hunending hends, fun _ => .inl hexhausted⟩

/-- A document with one parameter, whose schema is the named one. -/
def searching (schema : Value) (format : List (String × Value)) : Value :=
  .record [
    ("components", .record [("schemas", .record [("Search", schema)])]),
    ("paths", .record [("/things", .record [("get", .record [("parameters", .list [.record
      ([("name", .str "q"), ("in", .str "query"),
        ("schema", .record [("$ref", .str "#/components/schemas/Search")])] ++ format)])])])])]

/-- A search that may exclude what another search finds, with its members in brackets. -/
def nestedSearch : Value :=
  searching (.record [("properties", .record [
    ("name", .record [("type", .str "string")]),
    ("except", .record [("$ref", .str "#/components/schemas/Search")])])]) [("style", .str "deepObject")]

theorem nestedSearch_codec : ∃ ops table m, ∃ op ∈ ops, ∃ p ∈ op.parameters,
    (Operation.parseAll nestedSearch).result = .ok ops ∧
    SchemaTable.ofDocument nestedSearch .lastWins = .ok table ∧ Mapper.ofTable table = .ok m ∧
    TuplesApart nestedSearch (rootPlaces nestedSearch) ∧
    Describable nestedSearch (rootPlaces nestedSearch) ∧ NamesWorded nestedSearch ∧
    ¬ p.Unending m {} ∧ ((∃ c, ((p.codec m).run.run {}).1 = .ok c) ∨
      ∃ cause, ((p.codec m).run.run {}).1 = .error (.parameter p.place cause)) := by
  have hworded : NamesWorded nestedSearch := by decide +kernel
  have hread : Resolve.WellRead nestedSearch 3 := by decide +kernel
  have htuples := hread.tuplesApart
  have hshown := hread.describable
  have hok : ∃ ops ∈ (Operation.parseAll nestedSearch).result.toOption,
      ∃ table ∈ (SchemaTable.ofDocument nestedSearch .lastWins).toOption,
        ∃ m ∈ (Mapper.ofTable table).toOption, ∃ op ∈ ops, ∃ p ∈ op.parameters,
          ((p.codec m).run.run {}).1.toOption.isSome = true := by decide +kernel
  obtain ⟨ops, hops, hok⟩ := exists_ok.2 hok
  obtain ⟨table, htable, hok⟩ := exists_ok.2 hok
  obtain ⟨m, hm, op, hop, p, hp, hcodec⟩ := exists_ok.2 hok
  obtain ⟨hsettles, hrefused⟩ := codec_settles hops htable hm htuples hshown hworded .start hop hp
  have hends : ¬ p.Unending m {} := by
    intro hunending
    rcases hrefused hunending with heq | ⟨cause, heq⟩
    · rw [heq] at hcodec
      cases hcodec
    · rw [heq] at hcodec
      cases hcodec
  exact ⟨ops, table, m, op, hop, p, hp, hops, htable, hm, htuples, hshown, hworded, hends, hsettles hends⟩

/-- A search that is another search or a text. -/
def circularSearch : Value :=
  searching (.record [("oneOf", .list [
    .record [("$ref", .str "#/components/schemas/Search")], .record [("type", .str "string")]])]) []

/-- The union asks itself first. -/
theorem circularSearch_exhausted : ∃ ops table m, ∃ op ∈ ops, ∃ p ∈ op.parameters,
    (Operation.parseAll circularSearch).result = .ok ops ∧
    SchemaTable.ofDocument circularSearch .lastWins = .ok table ∧ Mapper.ofTable table = .ok m ∧
    TuplesApart circularSearch (rootPlaces circularSearch) ∧
    Describable circularSearch (rootPlaces circularSearch) ∧ NamesWorded circularSearch ∧
    ((p.codec m).run.run {}).1 = .error .exhausted := by
  have hworded : NamesWorded circularSearch := by decide +kernel
  have hread : Resolve.WellRead circularSearch 3 := by decide +kernel
  have hok : ∃ ops ∈ (Operation.parseAll circularSearch).result.toOption,
      ∃ table ∈ (SchemaTable.ofDocument circularSearch .lastWins).toOption,
        ∃ m ∈ (Mapper.ofTable table).toOption, ∃ op ∈ ops, ∃ p ∈ op.parameters,
          gaveUp ((p.codec m).run.run {}).1 = true := by decide +kernel
  obtain ⟨ops, hops, hok⟩ := exists_ok.2 hok
  obtain ⟨table, htable, hok⟩ := exists_ok.2 hok
  obtain ⟨m, hm, op, hop, p, hp, hcodec⟩ := exists_ok.2 hok
  refine ⟨ops, table, m, op, hop, p, hp, hops, htable, hm, hread.tuplesApart,
    hread.describable, hworded, gaveUp_iff.1 hcodec⟩

end Parameter
end OpenApi
