import OpenApi.Api.Names
import OpenApi.Proofs.Name.Registration

/-!
The names of an API. Types come first, then the function of each operation with what is made from it, and
the parameters; all of this is one run of registrations. So every owner is found, each type has one entry,
and names made from a function tell the function they were made from.
-/
namespace OpenApi

/-- What is asked for an operation with this id, whose function has this name. -/
def Operation.requests (op : Operation) (id : Option String) (function : String) :
    List NameRequest :=
  let stem := Identifier.pascal function
  .operation op.method op.path id op.key :: .name ("get" ++ stem ++ "Key") .cacheKey "" op.key ::
    .name ("use" ++ stem) .hook "" op.key :: .name ("create" ++ stem) .hook "create" op.key ::
    op.parameters.map fun p => .name p.name .parameter op.key p.owner

/-- The owners whose names belong to an operation, by scope and namespace. -/
def Operation.owners (op : Operation) : List (Scope × String × String) :=
  (.operation, op.key, "") :: (.cacheKey, op.key, "") :: (.hook, op.key, "") ::
    (.hook, op.key, "create") :: op.parameters.map fun p => (.parameter, p.owner, op.key)

theorem ownerKey_of_ne {raw source : String} (h : source ≠ "") : ownerKey raw source = source := by
  rw [ownerKey, if_neg]
  simpa using h

theorem Operation.key_ne_empty (op : Operation) : op.key ≠ "" := by
  intro h
  have hlength := congrArg String.length h
  simp [key] at hlength

theorem Parameter.owner_ne_empty (p : Parameter) : p.owner ≠ "" := by
  intro h
  have hlength := congrArg String.length h
  simp [owner] at hlength

theorem Operation.owners_eq (op : Operation) (id : Option String) (function : String) :
    (op.requests id function).map (fun r => (r.scope, r.key, r.space)) = op.owners := by
  simp [requests, owners, NameRequest.scope, NameRequest.key, NameRequest.space, NameRequest.source,
    NameRequest.raw, ownerKey_of_ne op.key_ne_empty, ownerKey_of_ne (Parameter.owner_ne_empty _)]

namespace NameTable

variable {naming : Naming} {table table' : NameTable} {scope : Scope} {space key : String}
  {types : List Scalar} {op : Operation} {requests : List NameRequest} {raws : List String}
  {e : NameEntry} {raw : String} {ops : List Operation}

/-! ### Runs of registrations -/

theorem registerTypes_ok (h : registerTypes naming table types = .ok table') :
    ∃ raws : List String, types = raws.map .str ∧
      table' = (run naming table (raws.map fun raw => .name raw .schemaType "" "")).2 := by
  induction types generalizing table with
  | nil =>
    cases h
    exact ⟨[], rfl, rfl⟩
  | cons name rest ih =>
    cases name with
    | str raw =>
      obtain ⟨raws, rfl, rfl⟩ := ih h
      exact ⟨raw :: raws, rfl, rfl⟩
    | _ => cases h

theorem registerParameters_eq (parameters : List Parameter) :
    table.registerParameters naming space parameters =
      (run naming table (parameters.map fun p => .name p.name .parameter space p.owner)).2 := by
  induction parameters generalizing table with
  | nil => rfl
  | cons p rest ih => exact ih

theorem registerEndpoint_ok (h : registerEndpoint naming table op = .ok table') :
    ∃ id, table' = (run naming table (op.requests id
      (table.registerOperation naming op.method op.path id op.key).1)).2 := by
  obtain ⟨id, -, rfl⟩ := Outcome.bind_pure_ok.1 h
  exact ⟨id, registerParameters_eq op.parameters⟩

/-- Owners that a run was asked for are found behind it. -/
theorem exists_find?_run {r : NameRequest} (hr : r ∈ requests) :
    ∃ e, (run naming table requests).2.find? r.scope r.space r.key = some e := by
  obtain ⟨_, -, e, he, -⟩ := Outcome.exists_mem_of_forall₂ (find?_run naming table requests) hr
  exact ⟨e, he⟩

theorem inScope_run (h : ∀ r ∈ requests, r.scope ≠ scope) :
    (run naming table requests).2.inScope scope none = table.inScope scope none := by
  induction requests generalizing table with
  | nil => rfl
  | cons r rest ih =>
    obtain ⟨hr, hrest⟩ := List.forall_mem_cons.1 h
    rw [run_cons, answer_eq, ih hrest]
    rcases register_cases naming table r.raw r.scope r.space r.source with ⟨e, -, heq⟩ | ⟨-, heq⟩
    · rw [heq]
    · rw [heq]
      simp [inScope, newEntry, hr]

/-! ### Types -/

/-- A table that holds types alone, in this order. -/
def HoldsTypes (table : NameTable) (raws : List String) : Prop :=
  table.map (fun e => (e.scope, e.space, e.source, e.raw)) =
    raws.map fun raw => (.schemaType, "", "", raw)

theorem HoldsTypes.of_mem (h : HoldsTypes table raws) (he : e ∈ table) :
    e.scope = .schemaType ∧ e.space = "" ∧ e.key = e.raw ∧ e.raw ∈ raws := by
  have hmem := List.mem_map_of_mem (f := fun e => (e.scope, e.space, e.source, e.raw)) he
  rw [h] at hmem
  obtain ⟨raw, hraw, heq⟩ := List.mem_map.1 hmem
  simp only [Prod.mk.injEq] at heq
  obtain ⟨hscope, hspace, hsource, rfl⟩ := heq
  refine ⟨hscope.symm, hspace.symm, ?_, hraw⟩
  rw [NameEntry.key, ← hsource]
  rfl

theorem HoldsTypes.register (h : HoldsTypes table raws) (hraw : raw ∉ raws) :
    HoldsTypes (table.register naming raw .schemaType "" "").2 (raws ++ [raw]) := by
  rcases register_cases naming table raw .schemaType "" "" with ⟨e, hfind, -⟩ | ⟨-, heq⟩
  · -- an owner that is found has its raw name among those that were registered
    obtain ⟨he, -, -, hkey⟩ := find?_some hfind
    obtain ⟨-, -, heq, hmem⟩ := h.of_mem he
    have hsame : e.raw = raw := heq.symm.trans hkey
    exact absurd (hsame ▸ hmem) hraw
  · rw [heq]
    unfold HoldsTypes at h ⊢
    rw [List.map_append, h, List.map_append]
    rfl

theorem HoldsTypes.run {done : List String} (h : HoldsTypes table done) (hnodup : (done ++ raws).Nodup) :
    HoldsTypes (run naming table (raws.map fun raw => .name raw .schemaType "" "")).2
      (done ++ raws) := by
  induction raws generalizing table done with
  | nil => rwa [List.append_nil]
  | cons raw rest ih =>
    have hnew : raw ∉ done := fun hmem =>
      (List.nodup_append.1 hnodup).2.2 raw hmem raw List.mem_cons_self rfl
    rw [List.append_cons] at hnodup ⊢
    exact ih (h.register hnew) hnodup

theorem HoldsTypes.inScope (h : HoldsTypes table raws) : table.inScope .schemaType none = table := by
  refine List.filter_eq_self.2 fun e he => ?_
  simp [(h.of_mem he).1]

theorem HoldsTypes.raws_eq (h : HoldsTypes table raws) : table.map (·.raw) = raws := by
  have hraws := congrArg (List.map fun p => p.2.2.2) h
  simpa [Function.comp_def] using hraws

/-! ### Names made from functions -/

/-- What stands around the stem of a function in the names that are made from it. -/
def affixes : Scope → String → Option (String × String)
  | .cacheKey, _ => some ("get", "Key")
  | .hook, space => some (if space = "create" then "create" else "use", "")
  | _, _ => none

/-- Is a raw name of an owner made from the function of the same owner, if it has to be? -/
def MadeFrom (table : NameTable) (scope : Scope) (space key raw : String) : Prop :=
  ∀ a ∈ affixes scope space, ∃ f, table.find? .operation "" key = some f ∧
    raw = a.1 ++ Identifier.pascal f.identifier ++ a.2

theorem MadeFrom.mono (h : table.MadeFrom scope space key raw) (hgrows : table <+: table') :
    table'.MadeFrom scope space key raw := by
  intro a ha
  obtain ⟨f, hf, heq⟩ := h a ha
  exact ⟨f, find?_of_prefix hgrows hf, heq⟩

/-- Names that are made from a function belong to the operation of the function. -/
def Derived (table : NameTable) : Prop := ∀ e ∈ table, table.MadeFrom e.scope e.space e.key e.raw

theorem Derived.register (h : Derived table) {source : String}
    (hraw : table.MadeFrom scope space (ownerKey raw source) raw) :
    Derived (table.register naming raw scope space source).2 := by
  have hgrows := prefix_register naming table raw scope space source
  rcases register_cases naming table raw scope space source with ⟨e, -, heq⟩ | ⟨-, heq⟩
  · rwa [heq]
  · rw [heq] at hgrows ⊢
    intro e he
    rcases List.mem_append.1 he with he | he
    · exact (h e he).mono hgrows
    · obtain rfl := List.mem_singleton.1 he
      exact hraw.mono hgrows

theorem Derived.run (h : Derived table)
    (hraw : ∀ r ∈ requests, table.MadeFrom r.scope r.space r.key r.raw) :
    Derived (run naming table requests).2 := by
  induction requests generalizing table with
  | nil => exact h
  | cons r rest ih =>
    obtain ⟨hr, hrest⟩ := List.forall_mem_cons.1 hraw
    rw [run_cons, answer_eq]
    exact ih (h.register hr) fun s hs => (hrest s hs).mono (prefix_register ..)

theorem Derived.registerEndpoint (h : Derived table)
    (hok : registerEndpoint naming table op = .ok table') : Derived table' := by
  obtain ⟨id, rfl⟩ := registerEndpoint_ok hok
  obtain ⟨f, hf, hidentifier⟩ :=
    find?_register naming table (operationRaw op.method op.path id) .operation "" op.key
  -- the function is registered first, and the other names are made from what was handed out
  rw [registerOperation, ← hidentifier, Operation.requests, run_cons, answer_eq]
  have hkey : ∀ raw, ownerKey raw op.key = op.key := fun _ => ownerKey_of_ne op.key_ne_empty
  rw [hkey] at hf
  have hoperation : ∀ key raw, table.MadeFrom .operation "" key raw := nofun
  refine Derived.run (h.register (hoperation _ _)) ?_
  simp only [List.forall_mem_cons, List.forall_mem_map, NameRequest.scope, NameRequest.space,
    NameRequest.key, NameRequest.raw, NameRequest.source, hkey]
  refine ⟨?_, ?_, ?_, fun p _ => nofun⟩
  · rintro _ ⟨⟩
    exact ⟨f, hf, rfl⟩
  · rintro _ ⟨⟩
    exact ⟨f, hf, String.append_empty.symm⟩
  · rintro _ ⟨⟩
    exact ⟨f, hf, String.append_empty.symm⟩

/-- Every identifier is a candidate for its raw name. -/
def Built (naming : Naming) (table : NameTable) : Prop :=
  ∀ e ∈ table, ∃ n, e.identifier = candidate naming (base naming e.raw) n

theorem Built.register (h : Built naming table) (raw : String) (scope : Scope)
    (space source : String) : Built naming (table.register naming raw scope space source).2 := by
  rcases register_cases naming table raw scope space source with ⟨e, -, heq⟩ | ⟨-, heq⟩
  · rwa [heq]
  · rw [heq]
    intro e he
    rcases List.mem_append.1 he with he | he
    · exact h e he
    · obtain rfl := List.mem_singleton.1 he
      exact ⟨_, rfl⟩

theorem Built.run (h : Built naming table) (requests : List NameRequest) :
    Built naming (run naming table requests).2 := by
  have hstep : ∀ table raw scope space source, Built naming table →
      Built naming (NameTable.register naming table raw scope space source).2 :=
    fun _ raw scope space source h => Built.register h raw scope space source
  exact run_keeps hstep h requests

/-! ### The names of an API -/

/-- What the table of an API holds: no two owners or identifiers of a scope and namespace are the same,
the entries of types are those of the given names, and the owners of all operations are found. -/
structure Assigned (naming : Naming) (types : List Scalar) (ops : List Operation)
    (table : NameTable) : Prop where
  distinct : Distinct naming table
  derived : Derived table
  built : Built naming table
  holds : ∃ raws : List String, types = raws.map .str ∧
    HoldsTypes (table.inScope .schemaType none) raws
  found : ∀ op ∈ ops, ∀ o ∈ op.owners, ∃ e, table.find? o.1 o.2.2 o.2.1 = some e

theorem assigned_registerTypes (hnodup : types.Nodup) (h : registerTypes naming [] types = .ok table) :
    Assigned naming types [] table := by
  obtain ⟨raws, rfl, rfl⟩ := registerTypes_ok h
  have hraws : raws.Nodup := List.Nodup.of_map _ hnodup
  have hholds : HoldsTypes (run naming [] (raws.map fun raw => .name raw .schemaType "" "")).2 raws :=
    HoldsTypes.run (show HoldsTypes [] [] from rfl) hraws
  constructor
  case distinct => exact Distinct.run .nil _
  case derived =>
    refine Derived.run (List.forall_mem_nil _) fun r hr => ?_
    obtain ⟨raw, -, rfl⟩ := List.mem_map.1 hr
    exact nofun
  case built => exact Built.run (List.forall_mem_nil _) _
  case holds => exact ⟨raws, rfl, hholds.inScope.symm ▸ hholds⟩
  case found => exact List.forall_mem_nil _

/-- One more operation keeps what a table holds, and its own owners are found from then on. -/
theorem Assigned.registerEndpoint (h : Assigned naming types ops table)
    (hok : registerEndpoint naming table op = .ok table') :
    Assigned naming types (ops ++ [op]) table' := by
  have hderived := h.derived.registerEndpoint hok
  obtain ⟨id, rfl⟩ := registerEndpoint_ok hok
  constructor
  case distinct => exact h.distinct.run _
  case derived => exact hderived
  case built => exact h.built.run _
  case holds =>
    have hscopes : ∀ r ∈ op.requests id (registerOperation naming table op.method op.path id op.key).1,
        r.scope ≠ .schemaType := by
      simp [Operation.requests, NameRequest.scope]
    rw [inScope_run hscopes]
    exact h.holds
  case found =>
    intro op' hop' o ho
    rcases List.mem_append.1 hop' with hop' | hop'
    · obtain ⟨e, he⟩ := h.found op' hop' o ho
      exact ⟨e, find?_of_prefix (prefix_run _) he⟩
    · obtain rfl := List.mem_singleton.1 hop'
      rw [← op'.owners_eq id] at ho
      obtain ⟨r, hr, rfl⟩ := List.mem_map.1 ho
      exact exists_find?_run hr

theorem assign_ok (hnodup : types.Nodup) (h : assign naming types ops = .ok table) :
    Assigned naming types ops table := by
  obtain ⟨start, hstart, h⟩ := Outcome.bind_ok.1 h
  -- the operations that are done and the rest make up all of them
  suffices hfold : ∀ rest done table', Assigned naming types done table' →
      rest.foldlM (registerEndpoint naming) table' = .ok table →
        Assigned naming types (done ++ rest) table from
    hfold ops [] start (assigned_registerTypes hnodup hstart) h
  intro rest
  induction rest with
  | nil =>
    intro done table' hdone h
    obtain rfl := Outcome.pure_ok.1 h
    rwa [List.append_nil]
  | cons op rest ih =>
    intro done table' hdone h
    rw [List.foldlM_cons] at h
    obtain ⟨next, hnext, h⟩ := Outcome.bind_ok.1 h
    rw [List.append_cons]
    exact ih _ next (hdone.registerEndpoint hnext) h

theorem Distinct.find?_of_mem (h : Distinct naming table) (he : e ∈ table) :
    table.find? e.scope e.space e.key = some e := by
  cases hfind : table.find? e.scope e.space e.key with
  | none => exact absurd rfl (find?_none hfind he rfl rfl)
  | some f =>
    obtain ⟨hf, hscope, hspace, hkey⟩ := find?_some hfind
    by_contra hne
    have hne' : f ≠ e := fun heq => hne (by rw [heq])
    exact (h.forall hf he hne' hscope hspace).1 hkey

/-- No two owners of a scope and namespace have the same identifier. -/
theorem Distinct.get_inj (h : Distinct naming table) {k l : Scalar} {identifier : String}
    (hk : table.get scope k space = .ok identifier) (hl : table.get scope l space = .ok identifier) :
    k = l := by
  obtain ⟨s, e, rfl, he, rfl⟩ := get_ok hk
  obtain ⟨t, f, rfl, hf, hsame⟩ := get_ok hl
  obtain ⟨hmem, hscope, hspace, rfl⟩ := find?_some he
  obtain ⟨hmem', hscope', hspace', rfl⟩ := find?_some hf
  by_contra hne
  have hne' : e ≠ f := fun heq => hne (by rw [heq])
  have hapart := h.forall hmem hmem' hne' (hscope.trans hscope'.symm) (hspace.trans hspace'.symm)
  exact hapart.2 (by rw [hsame])

/-- A type is found by its raw name. -/
theorem Assigned.get_type (h : Assigned naming types ops table)
    (he : e ∈ table.inScope .schemaType none) :
    table.get .schemaType (.str e.raw) "" = .ok e.identifier := by
  obtain ⟨raws, -, hholds⟩ := h.holds
  obtain ⟨hscope, hspace, hkey, -⟩ := hholds.of_mem he
  have hfind := h.distinct.find?_of_mem (List.mem_filter.1 he).1
  rw [hscope, hspace, hkey] at hfind
  exact get_of_find? hfind

theorem affixes_isIdentifier {a : String × String} (h : a ∈ affixes scope space) :
    Identifier.isIdentifier a.1 = true ∧ ∀ c ∈ a.2.toList, Identifier.isPart c = true := by
  have hall : ∀ a ∈ [("get", "Key"), ("create", ""), ("use", "")],
      Identifier.isIdentifier a.1 = true ∧ a.2.toList.all Identifier.isPart = true := by decide
  refine (hall a ?_).imp_right List.all_eq_true.1
  unfold affixes at h
  split at h
  · obtain rfl := Option.some.inj h
    simp
  · obtain rfl := Option.some.inj h
    split <;> simp
  · cases h

/-- A name that is made from a function starts with what it is made of. -/
theorem Assigned.toList_derived (h : Assigned naming types ops table) {a : String × String}
    (ha : a ∈ affixes scope space) {identifier : String}
    (hget : table.get scope (.str key) space = .ok identifier) :
    ∃ function, table.get .operation (.str key) "" = .ok function ∧
      (a.1 ++ Identifier.pascal function ++ a.2).toList <+: identifier.toList := by
  obtain ⟨s, e, hs, he, rfl⟩ := get_ok hget
  cases hs
  obtain ⟨hmem, rfl, rfl, rfl⟩ := find?_some he
  obtain ⟨f, hf, hraw⟩ := h.derived e hmem a ha
  refine ⟨f.identifier, get_of_find? hf, ?_⟩
  obtain ⟨n, hn⟩ := h.built e hmem
  obtain ⟨hbefore, hbehind⟩ := affixes_isIdentifier ha
  have hidentifier : Identifier.isIdentifier e.raw = true := by
    rw [hraw]
    refine Identifier.isIdentifier_append ?_ hbehind
    exact Identifier.isIdentifier_append hbefore fun _ => Identifier.isPart_of_mem_pascal
  rw [← hraw, hn]
  refine List.IsPrefix.trans ?_ (toList_candidate naming _ n)
  rw [base, Identifier.ofText_of_isIdentifier hidentifier]
  exact toList_unreserve naming _

end NameTable
end OpenApi
