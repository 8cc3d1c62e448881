import OpenApi.Api.Build
import OpenApi.Proofs.Operation.Faults
import OpenApi.Proofs.Operation.Places
import OpenApi.Proofs.Schema.Termination
import OpenApi.Proofs.Types.Faults
import OpenApi.Proofs.Wire.Reading

/-!
Making an API of a document. Operations record schemas by place, and resolving gives every such place a
node, so that an API is never refused for the lack of a node.
-/
namespace OpenApi

open Assoc (keys)
open Outcome (Faults Risks)

/-! ### Wire formats -/

namespace NamedTypes

variable {named : DeepCheck} {types : NamedTypes} {pointer : String}

theorem chase_known (types : NamedTypes) (fuel : Nat) (seen : List Scalar) (d : Descriptor) :
    Known (types.chase fuel seen d) := by
  induction fuel generalizing seen d with
  | zero => exact .error rfl
  | succ fuel ih =>
    unfold chase
    split
    · split
      · exact .ok
      · split
        · exact ih _ _
        · exact .error rfl
    · exact .ok

theorem behindNamed_known (types : NamedTypes) (d : Descriptor) : Known (types.behindNamed d) :=
  chase_known types _ _ d

theorem behind_known (types : NamedTypes) (d : Descriptor) : Known (types.behind d) :=
  (behindNamed_known types d).bind fun _ _ => .ok

theorem isScalarWith_known {named : Descriptor → Checked Bool} (hnamed : ∀ d, Known (named d))
    (d : Descriptor) : Known (isScalarWith named d) := by
  induction d using Descriptor.partsInduction with
  | h d ih =>
    cases d with
    | union members t =>
      rw [isScalarWith]
      rw [Descriptor.parts] at ih
      induction members with
      | nil => exact .ok
      | cons m rest hrest =>
        obtain ⟨hm, ih⟩ := List.forall_mem_cons.1 ih
        have hmember : Known (isScalarMember named m) := by
          cases m with
          | reference name t => exact hnamed _
          | _ => exact hm
        rw [allScalarWith_cons]
        refine hmember.bind fun scalar _ => ?_
        cases scalar with
        | true => exact hrest ih
        | false => exact .ok
    | _ => exact .ok

theorem isScalarWithin_known (types : NamedTypes) (fuel : Nat) (d : Descriptor) :
    Known (types.isScalarWithin fuel d) := by
  induction fuel generalizing d with
  | zero => exact .error rfl
  | succ fuel ih => exact (behind_known types d).bind fun d _ => isScalarWith_known ih d

theorem isScalar_known (types : NamedTypes) (d : Descriptor) : Known (types.isScalar d) :=
  isScalarWithin_known types _ d

theorem shape?_known (types : NamedTypes) (d : Descriptor) : Known (types.shape? d) := by
  refine (isScalar_known types d).bind fun scalar _ => ?_
  split
  · exact .ok
  · exact .ok

theorem checkDeepLeaf_known (types : NamedTypes) (pointer : String) (d : Descriptor) :
    Known (types.checkDeepLeaf pointer d) := by
  unfold checkDeepLeaf
  split
  · refine (isScalar_known types _).bind fun scalar _ => ?_
    split
    · exact .error rfl
    · exact .ok
  · refine (isScalar_known types _).bind fun scalar _ => ?_
    split
    · exact .error rfl
    · exact .ok

theorem checkDeepMember_known (hnamed : ∀ entered d, Known (named entered d)) (entered : List Scalar)
    (d : Descriptor) : Known (checkDeepMember types pointer named entered d) := by
  induction d using memberInduction generalizing entered with
  | named name t =>
    rw [checkDeepMember]
    exact hnamed _ _
  | object fields additional t ih =>
    rw [checkDeepMember_object]
    exact .foldlM fun m hm entered => ih m hm entered
  | leaf d hname hobject =>
    rw [checkDeepMember_leaf hname hobject]
    exact (checkDeepLeaf_known types pointer d).bind fun _ _ => .ok

theorem checkDeepNamed_known (types : NamedTypes) (pointer : String) (fuel : Nat)
    (entered : List Scalar) (d : Descriptor) :
    Known (checkDeepNamed types pointer fuel entered d) := by
  induction fuel generalizing entered d with
  | zero => exact .error rfl
  | succ fuel ih =>
    refine (behindNamed_known types d).bind fun found _ => ?_
    split
    · split
      · exact .ok
      · exact checkDeepMember_known ih _ _
    · exact (checkDeepLeaf_known types pointer _).bind fun _ _ => .ok

theorem checkDeep_known (types : NamedTypes) (pointer : String) (d : Descriptor) :
    Known (types.checkDeep pointer d) :=
  (checkDeepMember_known (checkDeepNamed_known types pointer _) [] d).bind fun _ _ => .ok

end NamedTypes

namespace Parameter

theorem checkFields_known (p : Parameter) (types : NamedTypes) (fields : List Field) :
    Known (p.checkFields types fields) := by
  induction fields with
  | nil => exact .ok
  | cons f rest ih =>
    refine (types.isScalar_known f.type).bind fun scalar _ => ?_
    split
    · exact ih
    · exact f.name.inner_local.known.bind fun _ _ => .error rfl

theorem shape_known (p : Parameter) (types : NamedTypes) (d : Descriptor) :
    Known (p.shape types d) := by
  refine (types.behind_known d).bind fun d _ => ?_
  by_cases hstyle : (p.style == .deepObject) = true
  · -- an object in brackets is checked by its members
    rw [if_pos hstyle]
    split
    · exact .guard rfl ((types.checkDeep_known _ _).bind fun _ _ => .ok)
    · exact .error rfl
  · rw [if_neg hstyle]
    refine (types.shape?_known d).bind fun found _ => ?_
    cases found with
    | none => exact .error rfl
    | some shape =>
      refine .guard rfl ?_
      dsimp only
      split
      · next harray =>
        -- an array is no object, and is not checked for fields
        have hobject : ¬ (shape == .object) = true := by
          rw [beq_iff_eq.1 harray]
          decide
        refine (types.isScalar_known _).bind fun scalar _ => .guard rfl ?_
        rw [if_neg hobject]
        exact .guard rfl .ok
      · split
        · refine (p.checkFields_known types _).bind fun _ _ => ?_
          exact .guard rfl (.guard rfl (.guard rfl .ok))
        · exact .guard rfl .ok

end Parameter

/-! ### Endpoints and names -/

section
variable {m : Mapper} (h : m.table.Followable) (hnames : ∀ id ∈ keys m.names, id ∈ keys m.table.nodes)
include h

theorem Endpoint.response_sure {r : Response} (hr : ∀ id ∈ r.schema, id ∈ keys m.table.nodes) :
    Sure (Endpoint.response m r) := by
  unfold Endpoint.response
  split
  · next id hid =>
    split
    · exact Risks.pure.bind fun _ => .pure
    · exact (Mapper.mapUse_sure h (hr id hid)).map.bind fun _ => .pure
  · exact Risks.pure.bind fun _ => .pure

include hnames

theorem Parameter.codec_sure {p : Parameter} (hp : ∀ id ∈ p.schema, id ∈ keys m.table.nodes) :
    Sure (p.codec m) := by
  unfold Parameter.codec
  split
  · split
    · next id hid =>
      refine (Mapper.mapUse_sure h (hp id hid)).bind fun type => ?_
      exact (Mapper.typesWithin_sure h hnames type).bind fun _ => .pure
    · refine Risks.pure.bind fun type => ?_
      exact (Mapper.typesWithin_sure h hnames type).bind fun _ => .pure
  · exact .throw rfl
  · next id _ hid =>
    have hrest : Sure (do
        let type ← m.mapUse id
        let types ← m.typesWithin type
        return { parameter := p, shape := ← p.shape types type, type, types : Codec }) := by
      refine (Mapper.mapUse_sure h (hp id hid)).bind fun type => ?_
      refine (Mapper.typesWithin_sure h hnames type).bind fun types => ?_
      exact (Risks.lift (p.shape_known types type)).bind fun _ => .pure
    split
    · exact Risks.bind (.throw rfl) fun _ => hrest
    · exact hrest

theorem Endpoint.ofOperation_sure {op : Operation} (hop : ∀ id ∈ op.schemas, id ∈ keys m.table.nodes) :
    Sure (Endpoint.ofOperation m op) := by
  have hparameters : Sure (op.parameters.mapM (·.codec m)) := by
    refine .mapM fun p hp => Parameter.codec_sure h hnames fun id hid => hop id ?_
    exact List.mem_append_left _ (List.mem_append_left _ (List.mem_filterMap.2 ⟨p, hp, hid⟩))
  have hresponses : Sure (op.responses.mapM (Endpoint.response m)) := by
    refine .mapM fun r hr => Endpoint.response_sure h fun id hid => hop id ?_
    exact List.mem_append_right _ (List.mem_filterMap.2 ⟨r, hr, hid⟩)
  refine hparameters.bind fun codecs => ?_
  dsimp only
  split
  · next id hid =>
    have hmem : id ∈ op.schemas :=
      List.mem_append_left _ (List.mem_append_right _ (Option.mem_toList.2 hid))
    refine (Mapper.mapUse_sure h (hop id hmem)).bind fun type => Risks.pure.bind fun body => ?_
    exact hresponses.bind fun _ => .pure
  · exact Risks.pure.bind fun body => hresponses.bind fun _ => .pure

theorem Api.mapAll_sure {ops : List Operation}
    (hops : ∀ op ∈ ops, ∀ id ∈ op.schemas, id ∈ keys m.table.nodes) : Sure (Api.mapAll m ops) := by
  refine (Mapper.namedTypes_sure h hnames).bind fun types => ?_
  exact (Risks.mapM fun op hop => Endpoint.ofOperation_sure h hnames (hops op hop)).bind fun _ => .pure

end

namespace NameTable

theorem registerTypes_known (naming : Naming) (table : NameTable) (types : List Scalar) :
    Known (registerTypes naming table types) := by
  fun_induction registerTypes naming table types with
  | case1 => exact .ok
  | case2 _ _ _ ih => exact ih
  | case3 => exact .error rfl

theorem registerEndpoint_known (naming : Naming) (table : NameTable) (op : Operation) :
    Known (registerEndpoint naming table op) := by
  refine Faults.bind ?_ fun _ _ => .ok
  unfold Operation.idText
  split
  · exact .ok
  · split
    · exact .ok
    · exact .error rfl

theorem assign_known (naming : Naming) (types : List Scalar) (operations : List Operation) :
    Known (assign naming types operations) :=
  (registerTypes_known naming [] types).bind fun _ _ => .foldlM fun op _ table =>
    registerEndpoint_known naming table op

end NameTable

/-! ### The API of a document -/

theorem Value.asEntries_local (v : Value) : Local v.asEntries := by
  have hpair : ∀ w : Value, Local w.asPair := by
    intro w
    refine w.elements_local.bind fun items _ => ?_
    split
    · exact .ok
    · exact .error rfl
  unfold asEntries
  split
  · exact .ok
  · refine (elements_local _).bind fun items _ => ?_
    exact Faults.bind (.mapM fun w _ => hpair w) fun _ _ => .ok

theorem Document.securitySchemes_local (doc : Value) : Local (securitySchemes doc) := by
  refine (doc.getD_local _ _).bind fun components _ => (components.get_local _).bind fun found _ => ?_
  dsimp only
  split
  · exact (doc.getD_local _ _).bind fun _ _ => .ok
  · exact .ok

theorem SchemaTable.ofDocument_known (doc : Value) (policy : MergePolicy) :
    Known (ofDocument doc policy) := by
  refine (ofDocument_failure doc policy).mono fun e he => ?_
  cases he with
  | ofLocal hlocal => exact Fault.knowsNode_of_isLocal hlocal
  | containsItself => rfl
  | stillComposing => rfl

namespace Api

variable {doc : Value}

/-- The places that operations record are places at which resolving starts. -/
theorem mem_keys_of_schemas (htyped : Document.AllMediaTyped doc) {ops : List Operation}
    (hops : (Operation.parseAll doc).result = .ok ops) {setting : Resolve.Setting} {a : Resolve.Arena}
    {table : SchemaTable} (hc : Resolve.Completed setting a table) (hdoc : setting.doc = doc)
    {op : Operation} (hop : op ∈ ops) {id : String} (hid : id ∈ op.schemas) :
    id ∈ keys table.nodes := by
  subst hdoc
  -- the walk has met no fault, so it came to the place
  obtain ⟨s, hs, rfl⟩ := Operation.parseAll_meets htyped hops hop hid hc.fault
  apply hc.root_mem
  rw [Resolve.rootPlaces, hc.names]
  exact hs

theorem build_known (htyped : Document.AllMediaTyped doc) (config : Config) :
    Known (build doc config).result := by
  refine Traced.faults_bind (Operation.parseAll_known doc) fun ops hops => ?_
  refine Traced.faults_bind (SchemaTable.ofDocument_known doc _) fun table htable => ?_
  -- naming the types of a table that was resolved does not fail
  obtain ⟨names, a, hc⟩ := SchemaTable.ofDocument_ok htable
  obtain ⟨m, hm⟩ := Mapper.exists_ofTable hc
  have hnames := Mapper.ofTable_names hc hm
  obtain rfl := hnames.table_eq
  have hmap : Sure (mapAll m ops) := mapAll_sure hc.followable hnames.mem fun op hop id hid =>
    mem_keys_of_schemas htyped hops hc rfl hop hid
  refine Traced.faults_bind (hm ▸ .ok) fun mapper hmapper => ?_
  cases hm.symm.trans hmapper
  refine Traced.faults_bind (hmap {}) fun mapped _ => ?_
  refine Traced.faults_bind (NameTable.assign_known _ _ _) fun names _ => ?_
  refine Traced.faults_bind .ok fun _ _ => ?_
  refine Traced.faults_bind (doc.get_local _).known fun info _ => ?_
  refine Traced.faults_bind (Value.asEntries_local _).known fun info _ => ?_
  refine Traced.faults_bind (Document.securitySchemes_local doc).known fun schemes _ => ?_
  exact Traced.faults_bind (Value.asEntries_local _).known fun schemes _ => .ok

/-- Reading the operations and resolving the schemas agree on the places of schemas: every schema that an
operation uses has a node of its own, and no API is refused for an id without a node. -/
theorem build_ne_unknownNode (htyped : Document.AllMediaTyped doc) :
    (∀ ops policy table, (Operation.parseAll doc).result = .ok ops →
      SchemaTable.ofDocument doc policy = .ok table → ∀ op ∈ ops, ∀ id ∈ op.schemas,
        ∃ n, table.node id = .ok n ∧ n.id = id) ∧
      ∀ config id, (build doc config).result ≠ .error (.schema id .unknownNode) := by
  constructor
  · intro ops policy table hops htable op hop id hid
    obtain ⟨names, a, hc⟩ := SchemaTable.ofDocument_ok htable
    obtain ⟨n, hn, hmem⟩ := SchemaTable.exists_node (mem_keys_of_schemas htyped hops hc rfl hop hid)
    exact ⟨n, hn, hc.closed.id_eq hmem⟩
  · intro config id herror
    cases build_known htyped config _ herror

/-- A shop with parameters of a path and of its operations, by schema, by media type and spelt in place,
with bodies of both kinds and with responses, at their places and behind references. -/
def shop : Value :=
  let ref (place : String) : Value := .record [("$ref", .str ("#/components/" ++ place))]
  let text : Value := .record [("type", .str "string")]
  let json (schema : Value) : Value :=
    .record [("application/json", .record [("schema", schema)]), ("text/plain", .null)]
  .record [
    ("components", .record [
      ("schemas", .record [("Item", .record [("properties", .record [("name", text)])])]),
      ("parameters", .record [("Page", .record [
        ("name", .str "page"), ("in", .str "query"), ("schema", .record [("type", .str "integer")])])]),
      ("requestBodies", .record [("Item", .record [("content", json (ref "schemas/Item"))])]),
      ("responses", .record [("Items", .record [
        ("content", json (.record [("items", ref "schemas/Item")]))])]),
      ("pathItems", .record [("items", .record [
        ("parameters", .list [.record [("name", .str "shop"), ("in", .str "header"),
          ("content", .record [("text/plain", .record [("schema", text)])])]]),
        ("get", .record [("parameters", .list [ref "parameters/Page"]),
          ("responses", .record [("200", ref "responses/Items"), ("404", .record [("schema", text)])])]),
        ("post", .record [("requestBody", ref "requestBodies/Item")]),
        ("put", .record [("parameters", .list [
          .record [("name", .str "item"), ("in", .str "body"), ("schema", ref "schemas/Item")],
          .record [("name", .str "size"), ("in", .str "query"), ("type", .str "integer")]])])])])]),
    ("paths", .record [("/items", ref "pathItems/items")])]

theorem shop_ne_unknownNode : Document.AllMediaTyped shop ∧
    (∃ ops table, (Operation.parseAll shop).result = .ok ops ∧
      SchemaTable.ofDocument shop .lastWins = .ok table ∧
      ops.map (·.schemas.length) = [4, 2, 3] ∧
      ∀ op ∈ ops, ∀ id ∈ op.schemas, ∃ n, table.node id = .ok n ∧ n.id = id) ∧
    ∀ config id, (build shop config).result ≠ .error (.schema id .unknownNode) := by
  have htyped : Document.AllMediaTyped shop := by decide +kernel
  obtain ⟨ops, hops, hlengths⟩ : ∃ ops, (Operation.parseAll shop).result = .ok ops ∧
      ops.map (·.schemas.length) = [4, 2, 3] := Outcome.exists_ok.2 (by decide +kernel)
  obtain ⟨table, htable, -⟩ : ∃ table, SchemaTable.ofDocument shop .lastWins = .ok table ∧
      table.roots.length = 8 := Outcome.exists_ok.2 (by decide +kernel)
  have hall := build_ne_unknownNode htyped
  exact ⟨htyped, ⟨ops, table, hops, htable, hlengths, hall.1 ops _ table hops htable⟩, hall.2⟩

end Api
end OpenApi
