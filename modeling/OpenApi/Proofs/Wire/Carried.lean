import OpenApi.Proofs.Types.Memo
import OpenApi.Proofs.Wire.Faults
import OpenApi.Proofs.Wire.Parameters

/-!
The named types that a wire format carries. They are those that the mapper has for their names, and all
references to names with content lead to them. Names without content are passed over when types are gathered,
so they cannot be followed.
-/
namespace OpenApi

open Descriptor (mem_walk_iff mem_walk_of_part mem_walk_trans)
open NamedTypes (behind_holds exists_behind)
open Outcome (Gives exists_ok)

/-! ### Gathering from any state -/

namespace Mapper

variable {m : Mapper} {st : MapState} {d : Descriptor}

theorem namedType_eq (hs : m.Sound st) (name : Scalar) :
    ((m.namedType name).run.run st).1 = ((m.namedType name).run.run {}).1 := by
  have hstart : m.Sound {} := List.forall_mem_nil _
  unfold namedType
  split
  · rw [mapType_eq hs, mapType_eq hstart]
  · rfl

theorem mapType_keeps (id : String) : Gives m.Sound (m.mapType id) fun _ => True :=
  .of_keeps fun _ hs => (mapWithin_sound _ hs id).2.2

/-- What is remembered refers to names of schemas only, and is what would be made. -/
def Faithful (m : Mapper) (st : MapState) : Prop := m.MemoLinked st ∧ m.Sound st

/-- The type that a new mapper has for a name. -/
def Denotes (m : Mapper) (name : Scalar) (d : Descriptor) : Prop :=
  m.Linked d ∧ ((m.namedType name).run.run {}).1 = .ok d

theorem namedType_gives (name : Scalar) : Gives m.Faithful (m.namedType name) (m.Denotes name) := by
  have hkeeps : Gives m.Sound (m.namedType name) fun _ => True := by
    unfold namedType
    split
    · exact mapType_keeps _
    · exact .throw
  refine (m.upholds_linked.namedType name).and ⟨fun s d t hs hrun => ?_, hkeeps.error⟩
  refine ⟨(hkeeps s d t hs hrun).1, ?_⟩
  rw [← namedType_eq hs, hrun]

theorem typesWithin_gives (hd : m.Linked d) :
    Gives m.Faithful (m.typesWithin d) fun types => types.Supplies m.Denotes d where
  ok _ _ _ hst hrun := typesWithin_outcome namedType_gives (fun _ _ h => h.1) hst hd hrun
  error _ _ _ hst hrun := (typesWithin_outcome namedType_gives (fun _ _ h => h.1) hst hd hrun).1

theorem codec_gives (p : Parameter) : Gives m.Faithful (p.codec m) fun c =>
    c.parameter = p ∧ m.Linked c.type ∧ c.types.Supplies m.Denotes c.type :=
  Parameter.codec_gives
    (fun id => ((m.upholds_linked.mapUse id).and (useWith_keeps mapType_keeps)).mono fun _ h => h.1)
    (m.upholds_linked.any {}) (fun _ => typesWithin_gives) p

theorem Reached.faithful (h : m.Reached st) : m.Faithful st :=
  h.holds ⟨List.forall_mem_nil _, List.forall_mem_nil _⟩
    (fun id => (m.upholds_linked.mapType id).and (mapType_keeps id)) codec_gives

/-- Gathering ends, whatever circles the types make. -/
theorem Reached.typesWithin (h : m.Reached st) (hd : m.Linked d) :
    (∃ types, ((m.typesWithin d).run.run st).1 = .ok types) ∨
      ∃ name ∈ m.names.map Prod.snd, ∃ f, ((m.namedType name).run.run st).1 = .error f ∧
        ((m.typesWithin d).run.run st).1 = .error f := by
  cases hrun : (m.typesWithin d).run.run st with
  | mk outcome st' =>
    have hout := (typesWithin_outcome namedType_gives (fun _ _ h => h.1) h.faithful hd hrun).2
    cases outcome with
    | ok types => exact .inl ⟨types, rfl⟩
    | error f =>
      obtain ⟨name, hname, s, hs, hfault⟩ := hout
      refine .inr ⟨name, hname, f, ?_, rfl⟩
      rw [namedType_eq h.faithful.2, ← namedType_eq hs.2, hfault]

end Mapper

/-! ### Writing and reading -/

namespace Codec

variable {c : Codec} {d : Descriptor}

theorem resolves_part {part : Descriptor} (hd : c.types.Resolves d) (hpart : part ∈ d.parts) :
    c.types.Resolves part :=
  fun name t ht => hd name t (mem_walk_of_part hpart ht)

theorem resolves_any : c.types.Resolves .any := by
  simp [NamedTypes.Resolves, Descriptor.AllReferences, Descriptor.any, Descriptor.walk]

theorem resolves_items (hd : c.types.Resolves d) : c.types.Resolves (items d) := by
  cases d with
  | array items t => exact resolves_part hd List.mem_cons_self
  | _ => exact resolves_any

/-- The types that a wire format holds. -/
def held (c : Codec) : List Descriptor := c.type :: c.types.map Prod.snd

/-- A wire format that knows nothing of types. -/
def untyped (c : Codec) : Codec := { c with type := .any, types := [] }

mutual

/-- Types are looked up in writing, but make no difference to it. -/
theorem deepPairs_untyped (htypes : ∀ e ∈ c.types, c.types.Resolves e.2) {d : Descriptor}
    (hd : c.types.Resolves d) (key : String) (v : Value) :
    c.deepPairs key d v = c.untyped.deepPairs key .any v := by
  obtain ⟨e, he⟩ := exists_behind htypes hd
  have hresolves : c.types.Resolves e := behind_holds htypes hd he
  cases v with
  | scalar s =>
    rw [deepPairs, deepPairs, behind, he]
    rfl
  | list vs =>
    rw [deepPairs, deepPairs, behind, he]
    exact deepItems_untyped htypes (resolves_items hresolves) key vs
  | map entries =>
    rw [deepPairs, deepPairs, behind, he]
    exact deepEntries_untyped htypes hresolves key entries

theorem deepEntries_untyped (htypes : ∀ e ∈ c.types, c.types.Resolves e.2) {d : Descriptor}
    (hd : c.types.Resolves d) (key : String) (entries : List (Scalar × Value)) :
    c.deepEntries key d entries = c.untyped.deepEntries key .any entries := by
  cases entries with
  | nil => rw [deepEntries, deepEntries]
  | cons entry rest =>
    obtain ⟨k, v⟩ := entry
    have hmember : c.types.Resolves (member d k) := member_holds resolves_any (fun _ => resolves_part hd) k
    simp only [deepEntries, deepPairs_untyped htypes hmember _ v, deepEntries_untyped htypes hd key rest]
    rfl

theorem deepItems_untyped (htypes : ∀ e ∈ c.types, c.types.Resolves e.2) {d : Descriptor}
    (hd : c.types.Resolves d) (key : String) (vs : List Value) :
    c.deepItems key d vs = c.untyped.deepItems key .any vs := by
  cases vs with
  | nil => rw [deepItems, deepItems]
  | cons v rest =>
    rw [deepItems, deepItems, deepPairs_untyped htypes hd key v, deepItems_untyped htypes hd key rest]

end

section
variable (htypes : ∀ e ∈ c.types, c.types.Resolves e.2)
include htypes

theorem encode_untyped (hd : c.types.Resolves c.type) (v : Value) : c.encode v = c.untyped.encode v := by
  have hshape : c.untyped.shape = c.shape := rfl
  unfold encode
  rw [hshape]
  split
  · rfl
  · cases c.shape with
    | deepObject =>
      dsimp only
      rw [encodeDeep, deepPairs_untyped htypes hd]
      rfl
    | _ => rfl

theorem AdditionalFault.eq_exhausted {f : Fault} (hd : c.types.Resolves c.type) (h : c.AdditionalFault f) :
    f = .exhausted := by
  obtain ⟨fields, a, t, hbehind, hfault⟩ := h
  have ha : c.types.Resolves a :=
    resolves_part (behind_holds htypes hd hbehind) (List.mem_append_right _ List.mem_cons_self)
  exact (NamedTypes.isScalar_faults htypes ha f hfault).1

end

end Codec

namespace Parameter

variable {m : Mapper} {st : MapState}

/-- A wire format carries the types of all names with content that its type leads to, as the mapper has them,
and gathering them ends. If all names that it holds have content, they can be followed from any of its types:
writing comes to what it would come to without types, and reading meets no fault for want of one. -/
theorem codec_carries (hst : m.Reached st) :
    (∀ d, m.Linked d → (∃ types, ((m.typesWithin d).run.run st).1 = .ok types) ∨
      ∃ name ∈ m.names.map Prod.snd, ∃ f, ((m.namedType name).run.run st).1 = .error f ∧
        ((m.typesWithin d).run.run st).1 = .error f) ∧
    ∀ (p : Parameter) c st', (p.codec m).run.run st = (.ok c, st') →
      (∀ d ∈ c.held, c.types.Carries d) ∧
      (∀ e ∈ c.types, ∀ s, m.Reached s → ((m.namedType e.1).run.run s).1 = .ok e.2) ∧
      ((∀ d ∈ c.held, d.Worded) →
        (∀ d ∈ c.held, ∀ e ∈ d.walk, ∃ e', c.behind e = .ok e') ∧
        (∀ v, c.encode v = c.untyped.encode v) ∧
        ∀ raw f, c.decode (some raw) = .error f → (∃ name cause, f = .wire name cause) ∨
          c.Escape raw f ∧ (c.AdditionalFault f → f = .exhausted)) := by
  refine ⟨fun d hd => hst.typesWithin hd, fun p c st' hcodec => ?_⟩
  obtain ⟨-, -, -, hnamed, htype, hclosed⟩ := Mapper.codec_gives p st c st' hst.faithful hcodec
  have hcarries : ∀ d ∈ c.held, c.types.Carries d :=
    List.forall_mem_cons.2 ⟨htype, List.forall_mem_map.2 hclosed⟩
  refine ⟨hcarries, fun e he s hs => ?_, fun hworded => ?_⟩
  · rw [Mapper.namedType_eq hs.faithful.2, (hnamed e he).2]
  · have hall : ∀ d ∈ c.held, c.types.Resolves d := fun d hd => (hcarries d hd).resolves (hworded d hd)
    obtain ⟨hd, htypes⟩ := List.forall_mem_cons.1 hall
    have htypes := List.forall_mem_map.1 htypes
    refine ⟨fun d hmem e he => ?_, Codec.encode_untyped htypes hd, fun raw f hf => ?_⟩
    · exact exists_behind htypes fun name t ht => hall d hmem name t (mem_walk_trans he ht)
    · have hexplained := Codec.decode_faults (typed_of_codec hcodec) raw f hf
      exact hexplained.imp_right fun hescape => ⟨hescape, Codec.AdditionalFault.eq_exhausted htypes hd⟩

theorem nestedSearch_carries : ∃ ops table m, ∃ op ∈ ops, ∃ p ∈ op.parameters,
    (Operation.parseAll nestedSearch).result = .ok ops ∧
    SchemaTable.ofDocument nestedSearch .lastWins = .ok table ∧ Mapper.ofTable table = .ok m ∧
    m.Reached {} ∧ ∃ c st', (p.codec m).run.run {} = (.ok c, st') ∧ Assoc.keys c.types = [.str "Search"] ∧
      (∀ d ∈ c.held, c.types.Carries d) ∧ (∀ d ∈ c.held, d.Worded) ∧ ∀ v, c.encode v = c.untyped.encode v := by
  have hok : ∃ ops ∈ (Operation.parseAll nestedSearch).result.toOption,
      ∃ table ∈ (SchemaTable.ofDocument nestedSearch .lastWins).toOption,
        ∃ m ∈ (Mapper.ofTable table).toOption, (∀ e ∈ m.names, (Value.scalar e.2).truthy = true) ∧
          ∃ op ∈ ops, ∃ p ∈ op.parameters, ∃ c ∈ ((p.codec m).run.run {}).1.toOption,
            Assoc.keys c.types = [.str "Search"] := by decide +kernel
  obtain ⟨ops, hops, hok⟩ := exists_ok.2 hok
  obtain ⟨table, htable, hok⟩ := exists_ok.2 hok
  obtain ⟨m, hm, hnames, op, hop, p, hp, hc⟩ := exists_ok.2 hok
  obtain ⟨c, hc, hkeys⟩ := exists_ok.2 hc
  have hc : (p.codec m).run.run {} = (.ok c, _) := Prod.ext hc rfl
  obtain ⟨-, -, hlinked, hsupplies⟩ := Mapper.codec_gives p {} c _ Mapper.Reached.start.faithful hc
  have hworded : ∀ d ∈ c.held, d.Worded := List.forall_mem_cons.2
    ⟨hlinked.worded hnames, List.forall_mem_map.2 fun e he => (hsupplies.named e he).1.worded hnames⟩
  obtain ⟨hcarries, -, huses⟩ := (codec_carries .start).2 p c _ hc
  exact ⟨ops, table, m, op, hop, p, hp, hops, htable, hm, .start, c, _, hc, hkeys, hcarries, hworded,
    (huses hworded).2.1⟩

/-- A header whose further properties are of a type with an empty name. -/
def unlabelled : Value :=
  .record [
    ("components", .record [("schemas", .record [("", .record [("type", .str "string")])])]),
    ("paths", .record [("/things", .record [("get", .record [("parameters", .list [.record [
      ("name", .str "q"), ("in", .str "header"), ("schema", .record [("type", .str "object"),
        ("additionalProperties", .record [("$ref", .str "#/components/schemas/")])])]])])])])]

/-- It is accepted, but the type is not carried, and no such property can be read. -/
theorem unlabelled_not_carried : ∃ ops table m, ∃ op ∈ ops, ∃ p ∈ op.parameters,
    (Operation.parseAll unlabelled).result = .ok ops ∧
    SchemaTable.ofDocument unlabelled .lastWins = .ok table ∧ Mapper.ofTable table = .ok m ∧
    ∃ c st' name t, (p.codec m).run.run {} = (.ok c, st') ∧ .reference name t ∈ c.type.walk ∧
      c.types.get? name = none ∧ (c.behind (.reference name t)).toOption = none ∧
      (c.decode (some "a,1")).toOption = none := by
  have hok : ∃ ops ∈ (Operation.parseAll unlabelled).result.toOption,
      ∃ table ∈ (SchemaTable.ofDocument unlabelled .lastWins).toOption,
        ∃ m ∈ (Mapper.ofTable table).toOption, ∃ op ∈ ops, ∃ p ∈ op.parameters,
          ∃ c ∈ ((p.codec m).run.run {}).1.toOption, c.types.isEmpty = true ∧
            (Codec.member c.type (.str "a")).kindText = "reference" ∧
            (c.decode (some "a,1")).toOption.isNone = true := by decide +kernel
  obtain ⟨ops, hops, hok⟩ := exists_ok.2 hok
  obtain ⟨table, htable, hok⟩ := exists_ok.2 hok
  obtain ⟨m, hm, op, hop, p, hp, hc⟩ := exists_ok.2 hok
  obtain ⟨c, hc, htypes, hkind, hdecode⟩ := exists_ok.2 hc
  have hnil : c.types = [] := List.isEmpty_iff.1 htypes
  have hmember : Codec.member c.type (.str "a") = .any ∨ Codec.member c.type (.str "a") ∈ c.type.parts :=
    Codec.member_holds (Q := fun d => d = .any ∨ d ∈ c.type.parts) (.inl rfl) (fun _ => .inr) _
  cases hname : Codec.member c.type (.str "a") with
  | reference name t =>
    rw [hname] at hmember
    have hpart : .reference name t ∈ c.type.parts := hmember.resolve_left (by simp [Descriptor.any])
    refine ⟨ops, table, m, op, hop, p, hp, hops, htable, hm, c, _, name, t, Prod.ext hc rfl,
      mem_walk_of_part hpart (mem_walk_iff.2 (.inl rfl)), by rw [hnil]; rfl, ?_,
      Option.isNone_iff_eq_none.1 hdecode⟩
    rw [Codec.behind, hnil]
    rfl
  | _ => simp [hname, Descriptor.kindText] at hkind

end Parameter
end OpenApi
