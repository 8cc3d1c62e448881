import OpenApi.Artifact.Render
import OpenApi.Proofs.Api.Closure
import OpenApi.Proofs.Api.Names
import OpenApi.Proofs.TypeScript.ItemTypes

/-!
What writing artifacts can fail with. Where the names of all references, operations and parameters are
registered, no name is missing, and what is left are values that cannot stand where they do.
-/
namespace OpenApi

open Descriptor (AllReferences)
open Outcome (Faults)

/-- A name of a type that is registered. -/
def NameTable.Names (names : NameTable) (name : Scalar) : Prop :=
  ∃ identifier, names.get .schemaType name "" = .ok identifier

/-- All references in a type are to registered names. -/
abbrev NameTable.Covers (names : NameTable) : Descriptor → Prop :=
  AllReferences fun name _ => names.Names name

/-- A computation that gives a result meets no fault. -/
theorem Local.of_ok {α : Type} {x : Checked α} (h : ∃ a, x = .ok a) : Local x := by
  obtain ⟨a, rfl⟩ := h
  exact .ok

namespace TypeScript

/-! ### Values -/

theorem keyOf_local (name : Scalar) : Local (keyOf name) := by
  unfold keyOf
  split
  · exact .ok
  · exact .error rfl

theorem quotedOf_local (v : Value) : Local (quotedOf v) := by
  unfold quotedOf
  split
  · exact .ok
  · exact .error rfl

theorem scalarLiteral_local (s : Scalar) : Local (scalarLiteral s) := by
  unfold scalarLiteral
  split
  · exact .ok
  · exact .ok
  · exact .ok
  · exact written_local _
  · exact .ok
  · exact .error rfl

theorem literal_local (v : Value) : Local (literal v) := by
  cases v with
  | scalar s =>
    rw [literal]
    exact scalarLiteral_local s
  | list items =>
    rw [literal, itemLiterals_eq]
    exact Faults.bind (.mapM fun w hw => literal_local w) fun _ _ => .ok
  | map entries =>
    rw [literal, entryLiterals_eq]
    exact Faults.bind (.mapM fun e he => e.1.text_local.bind fun _ _ =>
      (literal_local e.2).bind fun _ _ => .ok) fun _ _ => .ok
termination_by v.size
decreasing_by
  · exact Value.size_lt_of_item hw
  · exact Value.size_lt_of_entry he

theorem itemLiterals_local (items : List Value) : Local (itemLiterals items) := by
  rw [itemLiterals_eq]
  exact .mapM fun v _ => literal_local v

/-! ### Types -/

variable {names : NameTable} {d : Descriptor}

theorem base_local (h : names.Covers d) : Local (base names d) := by
  induction d using Descriptor.partsInduction with
  | h d ih =>
    have hparts : ∀ part ∈ d.parts, Local (base names part) := fun part hpart =>
      ih part hpart fun name t ht => h name t (Descriptor.mem_walk_of_part hpart ht)
    have htypes : Local (types names d.parts) := by
      rw [types_eq]
      exact .mapM fun part hpart => (hparts part hpart).bind fun _ _ => .ok
    cases d with
    | reference name t =>
      rw [base]
      exact .of_ok (Descriptor.allReferences_reference.1 h)
    | primitive p t =>
      rw [base]
      exact .ok
    | enum p literals t =>
      rw [base]
      exact (itemLiterals_local literals).bind fun _ _ => .ok
    | array d t =>
      rw [base]
      exact (hparts d (List.mem_singleton_self d)).bind fun _ _ => .ok
    | union ds t =>
      rw [base]
      exact htypes.bind fun _ _ => .ok
    | intersection ds t =>
      rw [base]
      exact htypes.bind fun _ _ => .ok
    | object fields additional t =>
      obtain ⟨hfields, hmore⟩ := List.forall_mem_append.1 hparts
      rw [base, objectFields_eq]
      refine Faults.bind (.mapM fun f hf => ?_) fun _ _ => ?_
      · have hf := List.forall_mem_map.1 hfields f hf
        cases f
        rw [field]
        exact hf.bind fun _ _ => (keyOf_local _).bind fun _ _ => .ok
      · split
        · exact (hmore _ (List.mem_singleton_self _)).bind fun _ _ => .ok
        · exact .ok
        · exact .ok

theorem type_local (h : names.Covers d) : Local (type names d) :=
  (base_local h).bind fun _ _ => .ok

namespace Zod

theorem limitCalls_local {cs : Constraints} {write : Value → Checked String}
    (hwrite : ∀ v, Local (write v)) (methods : List (Limit × String)) :
    Local (limitCalls cs write methods) := by
  refine Faults.bind (.mapM fun m _ => ?_) fun _ _ => .ok
  dsimp only
  split
  · exact (hwrite _).bind fun _ _ => .ok
  · exact .ok

theorem primitiveLimits_local (p : Primitive) (cs : Constraints) : Local (primitiveLimits p cs) := by
  have hcalls : Local (limitCalls cs Value.text [(.minLength, "min"), (.maxLength, "max")]) :=
    limitCalls_local Value.text_local _
  unfold primitiveLimits
  split
  · split
    · exact (quotedOf_local _).bind fun _ _ => Faults.bind .ok fun _ _ => hcalls.bind fun _ _ => .ok
    · exact Faults.bind .ok fun _ _ => hcalls.bind fun _ _ => .ok
  · exact limitCalls_local Value.inner_local _

theorem arrayLimits_local (cs : Constraints) : Local (arrayLimits cs) :=
  limitCalls_local Value.text_local _

theorem enum_local (literals : List Value) : Local (enum literals) :=
  (itemLiterals_local literals).bind fun _ _ => .ok

theorem union_local (members : List String) (discriminator : Option Discriminator) :
    Local (union members discriminator) := by
  unfold union
  split
  · exact (quotedOf_local _).bind fun _ _ => .ok
  · exact .ok

theorem intersection_local (members : List String) : Local (intersection members) := by
  unfold intersection
  split
  · exact .error rfl
  · exact .ok

theorem close_local (d : Descriptor) (text : String) : Local (close d text) := by
  unfold close
  dsimp only
  split
  · exact (literal_local _).bind fun _ _ => .ok
  · exact .ok

theorem schemaName_local {name : Scalar} (h : names.Names name) : Local (schemaName names name) :=
  (Local.of_ok h).bind fun _ _ => .ok

theorem schemas_eq (arriving : Bool) (ds : List Descriptor) :
    schemas names arriving ds = ds.mapM (schema names arriving) := by
  induction ds with
  | nil => rfl
  | cons d ds ih =>
    rw [schemas, List.mapM_cons, ih]
    simp only [schema, bind_assoc]

theorem keyedFields_eq (arriving : Bool) (fields : List Field) :
    keyedFields names arriving fields = fields.mapM (keyedField names arriving) := by
  induction fields with
  | nil => rfl
  | cons f fields ih => rw [keyedFields, List.mapM_cons, ih]

theorem base_local (arriving : Bool) (h : names.Covers d) : Local (base names arriving d) := by
  induction d using Descriptor.partsInduction with
  | h d ih =>
    have hparts : ∀ part ∈ d.parts, Local (schema names arriving part) := fun part hpart =>
      (ih part hpart fun name t ht => h name t (Descriptor.mem_walk_of_part hpart ht)).bind
        fun _ _ => close_local part _
    have hschemas : Local (schemas names arriving d.parts) := by
      rw [schemas_eq]
      exact .mapM hparts
    cases d with
    | reference name t =>
      rw [base]
      exact (schemaName_local (Descriptor.allReferences_reference.1 h)).bind fun _ _ => .ok
    | primitive p t =>
      rw [base]
      exact (primitiveLimits_local p _).bind fun _ _ => .ok
    | enum p literals t =>
      rw [base]
      exact enum_local literals
    | array d t =>
      rw [base, ← bind_assoc]
      exact (hparts d (List.mem_singleton_self d)).bind fun _ _ => (arrayLimits_local _).bind fun _ _ => .ok
    | union ds t =>
      rw [base]
      exact hschemas.bind fun _ _ => union_local _ _
    | intersection ds t =>
      rw [base]
      exact hschemas.bind fun _ _ => intersection_local _
    | object fields additional t =>
      obtain ⟨hfields, hmore⟩ := List.forall_mem_append.1 hparts
      have hkeyed : ∀ f ∈ fields, Local (keyedField names arriving f) := by
        intro f hf
        have hf := List.forall_mem_map.1 hfields f hf
        cases f
        rw [keyedField]
        refine (keyOf_local _).bind fun _ _ => ?_
        rw [← bind_assoc]
        exact hf.bind fun _ _ => .ok
      cases fields with
      | nil =>
        cases additional with
        | schema d =>
          rw [base, ← bind_assoc]
          exact (hmore d (List.mem_singleton_self d)).bind fun _ _ => .ok
        | flag b =>
          cases b <;>
          · simp only [base]
            exact .ok
        | unspecified =>
          simp only [base]
          exact .ok
      | cons f rest =>
        obtain ⟨hf, hrest⟩ := List.forall_mem_cons.1 hkeyed
        rw [base, keyedFields_eq]
        refine hf.bind fun _ _ => Faults.bind (.mapM hrest) fun _ _ => ?_
        dsimp only
        split
        · rw [← bind_assoc]
          exact (hmore _ (List.mem_singleton_self _)).bind fun _ _ => .ok
        · exact .ok
        · exact .ok

theorem schema_local (arriving : Bool) (h : names.Covers d) : Local (schema names arriving d) :=
  (base_local arriving h).bind fun _ _ => close_local d _

end Zod
end TypeScript

/-! ### Views -/

namespace View

variable {names : NameTable}

theorem securityNames_local (security : Value) : Local (securityNames security) := by
  unfold securityNames
  split
  · exact .ok
  · refine security.elements_local.bind fun items _ => Faults.bind (.mapM fun v _ => ?_) fun _ _ => .ok
    split
    · exact .mapM fun e _ => e.1.text_local
    · exact .ok

theorem security_local (v : Value) : Local (security v) := by
  unfold security
  split
  · exact .ok
  · exact v.elements_local.bind fun _ _ => (TypeScript.literal_local _).bind fun _ _ => .ok

theorem body_local {b : RequestBody} (h : names.Covers b.type) : Local (body names b) :=
  (TypeScript.Zod.schema_local false h).bind fun _ _ => (TypeScript.type_local h).bind fun _ _ => .ok

theorem response_local {r : TypedResponse} (h : ∀ d ∈ r.type, names.Covers d) :
    Local (response names r) := by
  unfold response
  dsimp only
  split
  · next d hd =>
    exact (TypeScript.Zod.schema_local false (h d hd)).bind fun _ _ =>
      (TypeScript.type_local (h d hd)).bind fun _ _ => Faults.bind .ok fun _ _ => .ok
  · exact Faults.bind .ok fun _ _ => .ok

theorem parameter_local {op : Operation} {c : Codec} (h : names.Covers c.type)
    (hname : ∃ i, names.get .parameter (.str c.parameter.owner) op.key = .ok i) :
    Local (parameter names op c) :=
  (TypeScript.Zod.schema_local _ h).bind fun _ _ => (TypeScript.type_local h).bind fun _ _ =>
    (Local.of_ok hname).bind fun _ _ => .ok

/-- The names that an endpoint needs are registered. -/
structure Registered (names : NameTable) (e : Endpoint) : Prop where
  owner : ∀ o ∈ e.operation.owners, ∃ i, names.get o.1 (.str o.2.1) o.2.2 = .ok i
  codec : ∀ c ∈ e.codecs, c.parameter ∈ e.operation.parameters
  covers : ∀ d ∈ e.descriptors, names.Covers d

namespace Registered

variable {e : Endpoint}

theorem body (h : Registered names e) : ∀ b ∈ e.body, names.Covers b.type := by
  intro b hb
  apply h.covers
  simp [Endpoint.descriptors, Option.mem_def.1 hb]

theorem response (h : Registered names e) :
    ∀ r ∈ e.responses, ∀ d ∈ r.type, names.Covers d := by
  intro r hr d hd
  apply h.covers
  exact List.mem_append_left _ (List.mem_append_right _ (List.mem_filterMap.2 ⟨r, hr, hd⟩))

theorem parameter (h : Registered names e) : ∀ c ∈ e.codecs, names.Covers c.type ∧
    ∃ i, names.get .parameter (.str c.parameter.owner) e.operation.key = .ok i := by
  intro c hc
  constructor
  · apply h.covers
    exact List.mem_append_right _ (List.mem_flatMap.2 ⟨c, hc, List.mem_cons_self⟩)
  · refine h.owner (.parameter, c.parameter.owner, e.operation.key) ?_
    simp only [Operation.owners, List.mem_cons, List.mem_map]
    exact .inr (.inr (.inr (.inr ⟨c.parameter, h.codec c hc, rfl⟩)))

end Registered

theorem operation_local {e : Endpoint} (h : Registered names e) : Local (operation names e) := by
  have howner : ∀ scope key space, (scope, key, space) ∈ e.operation.owners →
      Local (names.get scope (.str key) space) := fun _ _ _ ho => .of_ok (h.owner _ ho)
  have hparameters : Local (e.codecs.mapM (parameter names e.operation)) :=
    .mapM fun c hc => parameter_local (h.parameter c hc).1 (h.parameter c hc).2
  have hbody : Local (e.body.mapM (body names)) := by
    cases hb : e.body with
    | none => exact .ok
    | some b => exact (body_local (h.body b hb)).bind fun _ _ => .ok
  have hresponses : Local (e.responses.mapM (response names)) :=
    .mapM fun r hr => response_local (h.response r hr)
  refine (howner _ _ _ (by simp [Operation.owners])).bind fun _ _ => ?_
  refine hparameters.bind fun _ _ => hbody.bind fun _ _ => hresponses.bind fun _ _ => ?_
  refine (howner _ _ _ (by simp [Operation.owners])).bind fun _ _ => ?_
  refine (howner _ _ _ (by simp [Operation.owners])).bind fun _ _ => ?_
  refine (howner _ _ _ (by simp [Operation.owners])).bind fun _ _ => ?_
  exact (security_local _).bind fun _ _ => (securityNames_local _).bind fun _ _ => .ok

theorem type_local {types : NamedTypes} {name : Scalar} (hname : names.Names name)
    (htypes : ∀ d, types.get? name = some d → names.Covers d) : Local (type names types name) := by
  unfold type
  split
  · exact .error rfl
  · next d hd =>
    exact (Local.of_ok hname).bind fun _ _ => (TypeScript.Zod.schemaName_local hname).bind fun _ _ =>
      (TypeScript.type_local (htypes d hd)).bind fun _ _ =>
        (TypeScript.Zod.schema_local false (htypes d hd)).bind fun _ _ => .ok

/-- The names that an API needs are registered: those of its types, and those of its endpoints. -/
structure Nameable (names : NameTable) (api : Api) : Prop where
  endpoint : ∀ e ∈ api.endpoints, Registered names e
  listed : ∀ name ∈ api.types.dependencyOrder, names.Names name
  covers : ∀ e ∈ api.types, names.Covers e.2

theorem ofApi_local {api : Api} (h : Nameable names api) (config : Config) :
    Local (ofApi api names config) := by
  have htypes : Local (api.types.dependencyOrder.mapM (type names api.types)) := by
    refine .mapM fun name hname => type_local (h.listed name hname) fun d hd => ?_
    obtain ⟨k, hk, -⟩ := NamedTypes.mem_of_get? hd
    exact h.covers _ hk
  refine Faults.bind (.mapM fun e he => operation_local (h.endpoint e he)) fun _ _ => ?_
  refine htypes.bind fun _ _ => ?_
  dsimp only
  split
  · exact Faults.bind .ok fun _ _ => .ok
  · rw [map_eq_pure_bind]
    exact Faults.bind ((TypeScript.literal_local _).bind fun _ _ => .ok) fun _ _ => .ok

end View

namespace DocsView

theorem commaTexts_local (v : Value) : Local (commaTexts v) := by
  refine v.elements_local.bind fun items _ => Faults.bind (.mapM fun w _ => ?_) fun _ _ => .ok
  split
  · exact .ok
  · exact .error rfl

theorem detail_local (scheme : Entries) (type : Value) : Local (detail scheme type) := by
  unfold detail
  dsimp only
  split
  · exact (Value.text_local _).bind fun _ _ => (Value.text_local _).bind fun _ _ => .ok
  · exact .ok
  · exact (commaTexts_local _).bind fun _ _ => .ok
  · exact .ok
  · exact .ok

theorem ofApi_local {names : NameTable} {api : Api} (h : View.Nameable names api) (config : Config) :
    Local (ofApi api names config) := by
  refine (View.ofApi_local h config).bind fun view _ => ?_
  exact Faults.bind (.mapM fun e _ => (detail_local _ _).bind fun _ _ => .ok) fun _ _ => .ok

end DocsView

/-! ### Artifacts -/

namespace Artifact

theorem comment_local (lines : List Value) : Local (comment lines) :=
  Faults.bind (.mapM fun v _ => v.text_local) fun _ _ => .ok

theorem header_local (v : View) : Local (header v) :=
  v.title.text_local.bind fun _ _ => v.version.text_local.bind fun _ _ => .ok

theorem each_local {α : Type} {items : List α} {print : α → Checked (List String)}
    (h : ∀ x ∈ items, Local (print x)) : Local (each items print) :=
  Faults.bind (.mapM h) fun _ _ => .ok

theorem Client.lines_local (v : View) (own : List String)
    (operation : List String → OperationView → List String) : Local (lines v own operation) := by
  refine Faults.bind (each_local fun op _ => (comment_local op.doc).bind fun _ _ => .ok) fun _ _ => ?_
  exact (header_local v).bind fun _ _ => .ok

namespace Routes
open TypeScript (quotedOf_local)

theorem textLine_local (name : String) (v : Value) : Local (textLine name v) := by
  unfold textLine
  split
  · exact .ok
  · exact (quotedOf_local v).bind fun _ _ => .ok

theorem tags_local (values : List Value) : Local (tags values) := by
  unfold tags
  split
  · exact .ok
  · exact Faults.bind (.mapM fun v _ => quotedOf_local v) fun _ _ => .ok

theorem content_local (contentType : Option String) (zod : String) :
    Local (content contentType zod) :=
  (quotedOf_local _).bind fun _ _ => .ok

theorem request_local (op : OperationView) : Local (request op) := by
  unfold request
  split
  · exact .ok
  · split
    · next b _ =>
      refine Faults.bind ?_ fun _ _ => .ok
      exact (content_local b.contentType b.zod).bind fun _ _ => .ok
    · exact Faults.bind .ok fun _ _ => .ok

theorem response_local (r : ResponseView) : Local (response r) := by
  unfold response
  split
  · exact (content_local _ _).bind fun _ _ => Faults.bind .ok fun _ _ => .ok
  · exact Faults.bind .ok fun _ _ => .ok

theorem operation_local (op : OperationView) : Local (operation op) := by
  refine (tags_local _).bind fun _ _ => (textLine_local _ _).bind fun _ _ => ?_
  refine (textLine_local _ _).bind fun _ _ => (textLine_local _ _).bind fun _ _ => ?_
  refine (request_local op).bind fun _ _ => ?_
  exact Faults.bind (.mapM fun r _ => response_local r) fun _ _ => .ok

theorem lines_local (v : View) : Local (lines v) := by
  refine Faults.bind (.mapM fun t _ => (quotedOf_local _).bind fun _ _ => .ok) fun _ _ => ?_
  refine Faults.bind (.mapM fun op _ => operation_local op) fun _ _ => ?_
  exact (header_local v).bind fun _ _ => .ok

end Routes

theorem Handlers.lines_local (v : View) : Local (lines v) := by
  refine (header_local v).bind fun _ _ => Faults.bind (each_local fun op _ => ?_) fun _ _ => .ok
  exact (comment_local op.doc).bind fun _ _ => .ok

theorem Types.type_local (t : TypeView) : Local (type t) := by
  unfold type
  split
  · exact (comment_local _).bind fun _ _ => .ok
  · exact Faults.bind .ok fun _ _ => .ok

theorem Types.lines_local (v : View) : Local (lines v) := by
  refine (header_local v).bind fun _ _ => Faults.bind ?_ fun _ _ => .ok
  unfold separated
  split
  · exact .ok
  · refine (type_local _).bind fun _ _ => Faults.bind (each_local fun t _ => ?_) fun _ _ => .ok
    exact (type_local t).bind fun _ _ => .ok

namespace Docs

theorem operation_local (op : OperationView) : Local (operation op) :=
  Faults.bind (each_local fun v _ => v.text_local.bind fun _ _ => .ok) fun _ _ => .ok

theorem schemes_local (list : List SchemeView) : Local (schemes list) := by
  unfold schemes
  split
  · exact .ok
  · refine Faults.bind (.mapM fun s _ => ?_) fun _ _ => .ok
    exact s.name.text_local.bind fun _ _ => s.type.text_local.bind fun _ _ =>
      s.detail.text_local.bind fun _ _ => (Value.text_local _).bind fun _ _ => .ok

theorem lines_local (d : DocsView) : Local (lines d) := by
  have hrest : ∀ title version description : _, Local (do
      return ["<!-- Generated by oasgen from " ++ title ++ " " ++ version
          ++ s!" ({d.view.operations.length} operations). Do not edit. -->",
        "",
        "# " ++ title ++ " v" ++ version]
        ++ description ++ [""] ++ d.index.map indexLine
        ++ (← each d.view.operations operation) ++ (← schemes d.schemes)) := by
    intro title version description
    exact (each_local fun op _ => operation_local op).bind fun _ _ =>
      (schemes_local _).bind fun _ _ => .ok
  refine (Value.text_local _).bind fun title _ => (Value.text_local _).bind fun version _ => ?_
  dsimp only
  split
  · exact (Value.text_local _).bind fun _ _ => Faults.bind .ok fun _ _ => hrest _ _ _
  · exact Faults.bind .ok fun _ _ => hrest _ _ _

end Docs

theorem lines_local {names : NameTable} {api : Api} (h : View.Nameable names api) (target : Target)
    (config : Config) : Local (lines target api names config) := by
  have hview := View.ofApi_local h config
  cases target with
  | routes => exact hview.bind fun v _ => Routes.lines_local v
  | handlers => exact hview.bind fun v _ => Handlers.lines_local v
  | types => exact hview.bind fun v _ => Types.lines_local v
  | rpc => exact hview.bind fun v _ => Client.lines_local v _ _
  | swr => exact hview.bind fun v _ => Client.lines_local v _ _
  | tanstackQuery => exact hview.bind fun v _ => Client.lines_local v _ _
  | vueQuery => exact hview.bind fun v _ => Client.lines_local v _ _
  | svelteQuery => exact hview.bind fun v _ => Client.lines_local v _ _
  | docs => exact (DocsView.ofApi_local h config).bind fun d _ => Docs.lines_local d

theorem renderWith_local {names : NameTable} {api : Api} (h : View.Nameable names api)
    (target : Target) (config : Config) : Local (renderWith target api names config) := by
  have hlines : Local (do return ofLines (← lines target api names config)) :=
    (lines_local h target config).bind fun _ _ => .ok
  unfold renderWith reportUnnamed
  split
  · next hfault => cases hlines _ hfault
  · exact hlines

end Artifact
end OpenApi
