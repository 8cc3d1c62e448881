import OpenApi.Proofs.Artifact.Faults

/-!
An API that was made has no loose ends: its references lead to its types, its types and operations have
their names, and so writing it down never fails for a name that is missing.
-/
namespace OpenApi
namespace Api

open Descriptor (AllReferences)

/-- References lead to types, and whatever is looked up by name is there. -/
structure Resolved (api : Api) : Prop where
  reference : ∀ d ∈ api.descriptors, ∀ name t, .reference name t ∈ d.walk →
    name ∈ api.types.map Prod.fst
  /-- Types have different names, and one entry for each of them. -/
  type_nodup : (api.types.map Prod.fst).Nodup
  type_entry : (api.names.inScope .schemaType none).map (fun e => Scalar.str e.raw) =
    api.types.map Prod.fst
  type_get : ∀ e ∈ api.names.inScope .schemaType none,
    api.names.get .schemaType (.str e.raw) "" = .ok e.identifier
  identifier_nodup : ((api.names.inScope .schemaType none).map (·.identifier)).Nodup
  /-- The names of operations and of their parameters are found where they are looked up. -/
  parameter : ∀ e ∈ api.endpoints, e.codecs.map (·.parameter) = e.operation.parameters
  owner_get : ∀ e ∈ api.endpoints, ∀ o ∈ e.operation.owners,
    ∃ i, api.names.get o.1 (.str o.2.1) o.2.2 = .ok i
  operation_view : ∀ e ∈ api.endpoints, ∀ scope shown,
    View.operation api.names e ≠ .error (.noName scope shown)
  type_view : ∀ name ∈ api.types.dependencyOrder, ∀ scope shown,
    View.type api.names api.types name ≠ .error (.noName scope shown)
  render : ∀ target config text cause,
    Artifact.render target api config ≠ .error (.artifact text (.unnamed cause))

variable {doc : Value} {config : Config} {api : Api} {m : Mapper} {ops : List Operation}

theorem Mapped.type_nodup (h : Mapped m ops api.types api.endpoints) :
    (api.types.map Prod.fst).Nodup := by
  refine h.defines.apart.imp fun {a b} hsame heq => ?_
  rw [heq, b.same_self] at hsame
  cases hsame

/-- Only a text is the same as a text. -/
theorem mem_of_same {names : List Scalar} {raws : List String} (hraws : names = raws.map .str)
    {k name : Scalar} (hk : k ∈ names) (hsame : k.same name = true) : name ∈ names := by
  subst hraws
  obtain ⟨raw, hraw, rfl⟩ := List.mem_map.1 hk
  rw [Scalar.str_same_iff.1 hsame]
  exact hk

/-- Where all types have texts for names, those are the names that references can have. -/
theorem Mapped.mem_types (h : Mapped m ops api.types api.endpoints) {raws : List String}
    (hraws : api.types.map Prod.fst = raws.map .str) {d : Descriptor} (hd : m.Linked d) :
    d.AllReferences fun name _ => name ∈ api.types.map Prod.fst := by
  intro name t ht
  obtain ⟨id, hid⟩ := hd name t ht
  obtain ⟨k, hk, hsame⟩ := h.defines.covers _ hid
  exact mem_of_same hraws hk hsame

theorem Mapped.linked (h : Mapped m ops api.types api.endpoints) : ∀ d ∈ api.descriptors, m.Linked d := by
  intro d hd
  rcases List.mem_append.1 hd with hd | hd
  · obtain ⟨e, he, rfl⟩ := List.mem_map.1 hd
    exact h.defines.linked e he
  · obtain ⟨e, he, hd⟩ := List.mem_flatMap.1 hd
    obtain ⟨op, -, hmade⟩ := Outcome.exists_mem_of_forall₂ h.made.flip he
    exact hmade.linked d hd

/-- Everything that is looked up for an API was registered. -/
theorem nameable (hmapped : Mapped m ops api.types api.endpoints)
    (hnames : NameTable.Assigned config.naming (api.types.map Prod.fst) ops api.names) :
    View.Nameable api.names api := by
  obtain ⟨raws, hraws, hholds⟩ := hnames.holds
  have hname : ∀ name ∈ api.types.map Prod.fst, api.names.Names name := by
    intro name hname
    rw [hraws] at hname
    obtain ⟨raw, hraw, rfl⟩ := List.mem_map.1 hname
    rw [← hholds.raws_eq] at hraw
    obtain ⟨e, he, rfl⟩ := List.mem_map.1 hraw
    exact ⟨_, hnames.get_type he⟩
  have hcovers : ∀ d ∈ api.descriptors, api.names.Covers d := fun d hd name t ht =>
    hname name (hmapped.mem_types hraws (hmapped.linked d hd) name t ht)
  constructor
  case endpoint =>
    intro e he
    obtain ⟨op, hop, hmade⟩ := Outcome.exists_mem_of_forall₂ hmapped.made.flip he
    have hop' : e.operation ∈ ops := hmade.operation_eq ▸ hop
    refine ⟨fun o ho => ?_, fun c hc => ?_, fun d hd => ?_⟩
    · obtain ⟨f, hf⟩ := hnames.found e.operation hop' o ho
      exact ⟨_, NameTable.get_of_find? hf⟩
    · rw [hmade.operation_eq, ← hmade.parameters_eq]
      exact List.mem_map_of_mem hc
    · exact hcovers d (List.mem_append_right _ (List.mem_flatMap.2 ⟨e, he, hd⟩))
  case listed =>
    intro name hlisted
    have hsome := (NamedTypes.dependencyOrder_listed api.types).2 name hlisted
    obtain ⟨d, hd⟩ := Option.isSome_iff_exists.1 hsome
    obtain ⟨k, hk, hsame⟩ := NamedTypes.mem_of_get? hd
    exact hname name (mem_of_same hraws (Assoc.mem_keys_of_mem hk) hsame)
  case covers =>
    exact fun e he => hcovers e.2 (List.mem_append_left _ (List.mem_map_of_mem he))

/-- Making an API ties up all loose ends, or fails. -/
theorem build_resolved (h : (build doc config).result = .ok api) : api.Resolved := by
  obtain ⟨ops, m, -, hmapped, hassign⟩ := build_ok h
  have hnames := NameTable.assign_ok hmapped.type_nodup hassign
  have hnameable := nameable hmapped hnames
  obtain ⟨raws, hraws, hholds⟩ := hnames.holds
  constructor
  case reference => exact fun d hd => hmapped.mem_types hraws (hmapped.linked d hd)
  case type_nodup => exact hmapped.type_nodup
  case type_entry =>
    rw [hraws, ← hholds.raws_eq, List.map_map]
    rfl
  case type_get => exact fun e he => hnames.get_type he
  case identifier_nodup =>
    rw [List.Nodup, List.pairwise_map]
    refine (hnames.distinct.filter _).imp_of_mem fun he hf hapart heq => ?_
    obtain ⟨hscope, hspace, -⟩ := hholds.of_mem he
    obtain ⟨hscope', hspace', -⟩ := hholds.of_mem hf
    exact (hapart (hscope.trans hscope'.symm) (hspace.trans hspace'.symm)).2 (by rw [heq])
  case parameter =>
    intro e he
    obtain ⟨op, -, hmade⟩ := Outcome.exists_mem_of_forall₂ hmapped.made.flip he
    rw [hmade.operation_eq, hmade.parameters_eq]
  case owner_get => exact fun e he => (hnameable.endpoint e he).owner
  case operation_view =>
    intro e he scope shown herror
    cases View.operation_local (hnameable.endpoint e he) _ herror
  case type_view =>
    intro name hname scope shown herror
    have hlocal : Local (View.type api.names api.types name) := by
      refine View.type_local (hnameable.listed name hname) fun d hd => ?_
      obtain ⟨k, hk, -⟩ := NamedTypes.mem_of_get? hd
      exact hnameable.covers _ hk
    cases hlocal _ herror
  case render =>
    intro target config text cause herror
    cases Artifact.renderWith_local hnameable target config _ herror

/-- Parts of parts, with an answer that refers to itself and two types whose names make the same
identifier. -/
def parts : Value :=
  let ref (place : String) : Value := .record [("$ref", .str ("#/" ++ place))]
  let json (schema : Value) : Value :=
    .record [("content", .record [("application/json", .record [("schema", schema)])])]
  .record [
    ("components", .record [("schemas", .record [
      ("Part", .record [("properties", .record [
        ("kind", ref "components/schemas/part-kind"),
        ("parts", .record [("type", .str "array"), ("items", ref "components/schemas/Part")])])]),
      ("part-kind", .record [("type", .str "string")]),
      ("part.kind", .record [("type", .str "integer")])])]),
    ("paths", .record [("/parts", .record [
      ("get", .record [
        ("parameters", .list [.record [
          ("name", .str "kind"), ("in", .str "query"), ("schema", ref "components/schemas/part-kind")]]),
        ("responses", .record [("200", json (.record [("properties", .record [
          ("next", ref "paths/~1parts/get/responses/200/content/application~1json/schema")])]))])]),
      ("post", .record [("requestBody", json (ref "components/schemas/Part"))])])])]

theorem parts_resolved : ∃ api, (build parts {}).result = .ok api ∧
    ((api.names.inScope .schemaType none).map (·.identifier) =
        ["Part", "part_kind", "part_kind_2", "Parts200"] ∧
      api.endpoints.map (·.descriptors.length) = [3, 1]) ∧ api.Resolved := by
  obtain ⟨api, hapi, hsizes⟩ : ∃ api, (build parts {}).result = .ok api ∧
      ((api.names.inScope .schemaType none).map (·.identifier) =
          ["Part", "part_kind", "part_kind_2", "Parts200"] ∧
        api.endpoints.map (·.descriptors.length) = [3, 1]) :=
    Outcome.exists_ok.2 (by decide +kernel)
  exact ⟨api, hapi, hsizes, build_resolved hapi⟩

end Api
end OpenApi
