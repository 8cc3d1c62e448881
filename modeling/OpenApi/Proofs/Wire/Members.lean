import OpenApi.Proofs.Wire.Parameters

/-!
What a parameter holds outside of brackets. The types of items and of declared fields are checked before a
parameter gets its wire format; the type of further properties is not, so an object has scalar members under
all keys only if that type happens to be a scalar.
-/
namespace OpenApi

open Outcome (bind_ok exists_ok ran_bind ran_lift)

namespace Codec

variable {types : NamedTypes} {fields : List Field} {additional : Additional Descriptor} {t : Traits}

/-- Some key is not declared. -/
theorem exists_undeclared (fields : List Field) :
    ∃ key : String, ∀ f ∈ fields, f.name.same (.str key) = false := by
  refine ⟨Mapper.freshName (fields.map (·.name)) "", fun f hf => Bool.eq_false_iff.2 fun hsame => ?_⟩
  have hmem := List.mem_map_of_mem (f := fun f : Field => f.name) hf
  rw [Scalar.same_str_iff.1 hsame] at hmem
  exact Mapper.freshName_not_mem _ _ hmem

theorem member_of_declared {key : Scalar} (h : ∃ f ∈ fields, f.name.same key = true) :
    ∃ f ∈ fields, member (.object fields additional t) key = f.type := by
  obtain ⟨f, hf, hsame⟩ := h
  have hfind : (fields.find? fun f => f.name.same key).isSome = true :=
    List.find?_isSome.2 ⟨f, hf, hsame⟩
  obtain ⟨g, hg⟩ := Option.isSome_iff_exists.1 hfind
  exact ⟨g, List.mem_of_find?_eq_some hg, by simp only [member, hg]⟩

theorem member_of_undeclared {key : Scalar} (h : ∀ f ∈ fields, f.name.same key = false) :
    member (.object fields additional t) key = (additional.toList.head?).getD .any := by
  have hfind : (fields.find? fun f => f.name.same key) = none :=
    List.find?_eq_none.2 fun f hf => by simp [h f hf]
  simp only [member, hfind]
  cases additional <;> rfl

/-- All members are scalars if and only if further properties are. -/
theorem scalar_members_iff (hfields : ∀ f ∈ fields, types.isScalar f.type = .ok true) :
    (∀ key : String, types.isScalar (member (.object fields additional t) (.str key)) = .ok true) ↔
      ∀ a ∈ additional.toList, types.isScalar a = .ok true := by
  constructor
  · intro h a ha
    obtain ⟨key, hkey⟩ := exists_undeclared fields
    have hmember := h key
    rw [member_of_undeclared hkey] at hmember
    cases additional with
    | schema d =>
      rw [List.mem_singleton.1 ha]
      exact hmember
    | _ => cases ha
  · intro h key
    by_cases hdeclared : ∃ f ∈ fields, f.name.same (.str key) = true
    · obtain ⟨f, hf, heq⟩ := member_of_declared hdeclared
      rw [heq]
      exact hfields f hf
    · rw [member_of_undeclared (by simpa using hdeclared)]
      cases additional with
      | schema d => exact h d (List.mem_singleton_self d)
      | _ => rfl

end Codec

namespace Parameter
open Resolve (TuplesApart Describable NamesWorded rootPlaces)

variable {p : Parameter} {m : Mapper} {st : MapState}

theorem Ready.refused_of_not_flat (h : p.Ready m st) {type d : Descriptor} {types : NamedTypes}
    (htype : p.HasType m st type types) (hstyle : p.style ≠ .deepObject)
    (hd : types.behind type = .ok d) (hflat : ¬ types.Flat d) :
    (∃ cause, ((p.codec m).run.run st).1 = .error (.parameter p.place cause)) ∨
      ((p.codec m).run.run st).1 = .error .exhausted ∧ p.Unending m st := by
  refine h.codec_cases.resolve_left ?_
  rintro ⟨⟨c, hc⟩, -⟩
  rw [htype.codec_eq] at hc
  split at hc
  · next hallows =>
    obtain ⟨shape, hshape, -⟩ := bind_ok.1 hc
    exact hflat (isFlat_of_shape hallows hshape hstyle hd)
  · cases hc

/-- An object that is accepted outside of brackets has scalars under all declared keys, and under all keys if
and only if its further properties are scalars. What holds more than scalars in its items or declared fields is
refused. -/
theorem codec_members {doc : Value} {policy : MergePolicy} {table : SchemaTable} {ops : List Operation}
    {op : Operation} (hops : (Operation.parseAll doc).result = .ok ops)
    (htable : SchemaTable.ofDocument doc policy = .ok table) (hm : Mapper.ofTable table = .ok m)
    (htuples : TuplesApart doc (rootPlaces doc)) (hshown : Describable doc (rootPlaces doc))
    (hworded : NamesWorded doc) (hst : m.Reached st) (hop : op ∈ ops) (hp : p ∈ op.parameters) :
    (∀ c st', (p.codec m).run.run st = (.ok c, st') → c.shape = .object → ∃ fields additional t,
      c.behind c.type = .ok (.object fields additional t) ∧
      (∀ key : String, (∃ f ∈ fields, f.name.same (.str key) = true) →
        c.types.isScalar (Codec.member (.object fields additional t) (.str key)) = .ok true) ∧
      ((∀ key : String,
          c.types.isScalar (Codec.member (.object fields additional t) (.str key)) = .ok true) ↔
        ∀ a ∈ additional.toList, c.types.isScalar a = .ok true)) ∧
    ∀ type types d, p.HasType m st type types → p.style ≠ .deepObject → types.behind type = .ok d →
      ¬ types.Flat d →
        (∃ cause, ((p.codec m).run.run st).1 = .error (.parameter p.place cause)) ∨
          ((p.codec m).run.run st).1 = .error .exhausted ∧ p.Unending m st := by
  constructor
  · intro c st' hc hshape
    cases typed_of_codec hc with
    | object _ hd hfields =>
      refine ⟨_, _, _, hd, fun key hkey => ?_, Codec.scalar_members_iff hfields⟩
      obtain ⟨f, hf, heq⟩ := Codec.member_of_declared hkey
      rw [heq]
      exact hfields f hf
    | content heq | scalar heq | array heq | deep heq => cases heq.symm.trans hshape
  · intro type types d htype hstyle hd hflat
    have hready := ready_of_document hops htable hm htuples hshown hworded hst hop hp
    exact hready.refused_of_not_flat htype hstyle hd hflat

/-- A document with these parameters. -/
def listing (parameters : List Value) : Value :=
  .record [("paths", .record [("/things", .record [("get", .record [("parameters", .list parameters)])])])]

/-- An object of texts and numbers, and an array of arrays. -/
def labels : Value :=
  listing [
    .record [("name", .str "labels"), ("in", .str "query"), ("explode", .bool false),
      ("schema", .record [("properties", .record [("color", .record [("type", .str "string")])]),
        ("additionalProperties", .record [("type", .str "integer")])])],
    .record [("name", .str "grid"), ("in", .str "query"), ("schema", .record [("type", .str "array"),
      ("items", .record [("type", .str "array"), ("items", .record [("type", .str "string")])])])]]

theorem labels_codec_members : ∃ ops table m,
    (∃ op ∈ ops, ∃ p ∈ op.parameters, ∃ c st', (p.codec m).run.run {} = (.ok c, st') ∧
      c.shape = .object ∧ ∃ fields additional t, c.behind c.type = .ok (.object fields additional t) ∧
      ((∀ key : String,
          c.types.isScalar (Codec.member (.object fields additional t) (.str key)) = .ok true) ↔
        ∀ a ∈ additional.toList, c.types.isScalar a = .ok true)) ∧
    (∃ op ∈ ops, ∃ q ∈ op.parameters,
      (∃ cause, ((q.codec m).run.run {}).1 = .error (.parameter q.place cause)) ∨
        ((q.codec m).run.run {}).1 = .error .exhausted ∧ q.Unending m {}) ∧
    (Operation.parseAll labels).result = .ok ops ∧ SchemaTable.ofDocument labels .lastWins = .ok table ∧
    Mapper.ofTable table = .ok m ∧ TuplesApart labels (rootPlaces labels) ∧
    Describable labels (rootPlaces labels) ∧ NamesWorded labels := by
  have hworded : NamesWorded labels := by decide +kernel
  have hread : Resolve.WellRead labels 3 := by decide +kernel
  have htuples := hread.tuplesApart
  have hshown := hread.describable
  have hobject : ∃ ops ∈ (Operation.parseAll labels).result.toOption,
      ∃ table ∈ (SchemaTable.ofDocument labels .lastWins).toOption,
        ∃ m ∈ (Mapper.ofTable table).toOption, ∃ op ∈ ops, ∃ p ∈ op.parameters,
          ∃ c ∈ ((p.codec m).run.run {}).1.toOption, c.shape = .object := by decide +kernel
  have hplain : ∀ ops ∈ (Operation.parseAll labels).result.toOption, ∀ op ∈ ops, ∀ q ∈ op.parameters,
      q.contentType = none ∧ q.style ≠ .deepObject := by decide +kernel
  have harray : ∃ ops ∈ (Operation.parseAll labels).result.toOption,
      ∃ table ∈ (SchemaTable.ofDocument labels .lastWins).toOption,
        ∃ m ∈ (Mapper.ofTable table).toOption, ∃ op ∈ ops, ∃ q ∈ op.parameters, ∃ id ∈ q.schema,
          ((do
            let type ← m.mapUse id
            let types ← m.typesWithin type
            types.isScalar (Codec.items (← types.behind type)) : Mapping Bool).run.run {}).1.toOption =
              some false := by decide +kernel
  obtain ⟨ops, hops, hobject⟩ := exists_ok.2 hobject
  obtain ⟨table, htable, hobject⟩ := exists_ok.2 hobject
  obtain ⟨m, hm, op, hop, p, hp, hc⟩ := exists_ok.2 hobject
  obtain ⟨c, hc, hshape⟩ := exists_ok.2 hc
  obtain ⟨ops', hops', harray⟩ := exists_ok.2 harray
  cases hops.symm.trans hops'
  obtain ⟨table', htable', harray⟩ := exists_ok.2 harray
  cases htable.symm.trans htable'
  obtain ⟨m', hm', op', hop', q, hq, id, hid, hitems⟩ := exists_ok.2 harray
  cases hm.symm.trans hm'
  obtain ⟨hcontent, hstyle⟩ := hplain ops (congrArg Except.toOption hops) op' hop' q hq
  obtain ⟨_, hitems, rfl⟩ := exists_ok.2 ⟨false, hitems, rfl⟩
  have hc : (p.codec m).run.run {} = (.ok c, _) := Prod.ext hc rfl
  obtain ⟨type, st₁, htype, hitems⟩ := ran_bind.1 (Prod.ext hitems rfl)
  obtain ⟨types, st₂, htypes, hitems⟩ := ran_bind.1 hitems
  obtain ⟨d, st₃, hd, hitems⟩ := ran_bind.1 hitems
  have hflat : ¬ types.Flat d := by
    intro hflat
    cases (ran_lift.1 hitems).1.symm.trans hflat.items
  have htyped : q.HasType m {} type types := ⟨id, st₁, st₂, hcontent, hid, htype, htypes⟩
  obtain ⟨fields, additional, t, hbehind, -, hkeys⟩ :=
    (codec_members hops htable hm htuples hshown hworded .start hop hp).1 c _ hc hshape
  have hrefused := (codec_members hops htable hm htuples hshown hworded .start hop' hq).2
    type types d htyped hstyle (ran_lift.1 hd).1 hflat
  exact ⟨ops, table, m, ⟨op, hop, p, hp, c, _, hc, hshape, fields, additional, t, hbehind, hkeys⟩,
    ⟨op', hop', q, hq, hrefused⟩, hops, htable, hm, htuples, hshown, hworded⟩

/-- An object with further properties that are arrays. -/
def tags : Value :=
  listing [
    .record [("name", .str "tags"), ("in", .str "query"), ("explode", .bool false),
      ("schema", .record [("properties", .record [("color", .record [("type", .str "string")])]),
        ("additionalProperties", .record [("type", .str "array"),
          ("items", .record [("type", .str "string")])])])]]

/-- It is accepted, and what it holds under any other key than its own is no scalar. -/
theorem tags_not_scalar : ∃ ops table m, ∃ op ∈ ops, ∃ p ∈ op.parameters,
    (Operation.parseAll tags).result = .ok ops ∧ SchemaTable.ofDocument tags .lastWins = .ok table ∧
    Mapper.ofTable table = .ok m ∧ TuplesApart tags (rootPlaces tags) ∧
    Describable tags (rootPlaces tags) ∧ NamesWorded tags ∧
    ∃ c st' d, (p.codec m).run.run {} = (.ok c, st') ∧ c.shape = .object ∧ c.behind c.type = .ok d ∧
      c.types.isScalar (Codec.member d (.str "size")) = .ok false := by
  have hworded : NamesWorded tags := by decide +kernel
  have hread : Resolve.WellRead tags 3 := by decide +kernel
  have hok : ∃ ops ∈ (Operation.parseAll tags).result.toOption,
      ∃ table ∈ (SchemaTable.ofDocument tags .lastWins).toOption,
        ∃ m ∈ (Mapper.ofTable table).toOption, ∃ op ∈ ops, ∃ p ∈ op.parameters,
          ∃ c ∈ ((p.codec m).run.run {}).1.toOption, c.shape = .object ∧
            (do c.types.isScalar (Codec.member (← c.behind c.type) (.str "size"))).toOption =
              some false := by decide +kernel
  obtain ⟨ops, hops, hok⟩ := exists_ok.2 hok
  obtain ⟨table, htable, hok⟩ := exists_ok.2 hok
  obtain ⟨m, hm, op, hop, p, hp, hc⟩ := exists_ok.2 hok
  obtain ⟨c, hc, hshape, hmember⟩ := exists_ok.2 hc
  obtain ⟨_, hmember, rfl⟩ := exists_ok.2 ⟨false, hmember, rfl⟩
  obtain ⟨d, hd, hmember⟩ := bind_ok.1 hmember
  exact ⟨ops, table, m, op, hop, p, hp, hops, htable, hm, hread.tuplesApart,
    hread.describable, hworded, c, _, d, Prod.ext hc rfl, hshape, hd, hmember⟩

end Parameter
end OpenApi
