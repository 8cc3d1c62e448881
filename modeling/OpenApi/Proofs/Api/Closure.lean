import OpenApi.Api.Build
import OpenApi.Proofs.Notice
import OpenApi.Proofs.Types.References
import OpenApi.Proofs.Wire.Types

/-!
No reference of an API leads nowhere. Mapping refers to a schema by its name alone, and every name gets
a type, so all references in named types, bodies, responses and wire formats are to named types.
-/
namespace OpenApi

open Outcome (Gives)

namespace NamedTypes

variable {types pairs : NamedTypes}

/-- Setting a name adds it, unless one that is the same is there. -/
theorem keys_insert (types : NamedTypes) (name : Scalar) (d : Descriptor) :
    (types.insert name d).map Prod.fst = types.map Prod.fst ∧
        (∃ k ∈ types.map Prod.fst, k.same name = true) ∨
      (types.insert name d).map Prod.fst = types.map Prod.fst ++ [name] ∧
        ∀ k ∈ types.map Prod.fst, k.same name = false := by
  induction types with
  | nil => exact .inr ⟨rfl, nofun⟩
  | cons f rest ih =>
    rw [insert]
    by_cases hsame : f.1.same name = true
    · rw [if_pos hsame]
      exact .inl ⟨rfl, f.1, List.mem_cons_self, hsame⟩
    · rw [if_neg hsame]
      rcases ih with ⟨hkeys, k, hk, hkname⟩ | ⟨hkeys, hnone⟩
      · exact .inl ⟨congrArg (f.1 :: ·) hkeys, k, List.mem_cons_of_mem _ hk, hkname⟩
      · exact .inr ⟨congrArg (f.1 :: ·) hkeys,
          List.forall_mem_cons.2 ⟨Bool.eq_false_iff.2 hsame, hnone⟩⟩

/-- Sets all names of a list. -/
abbrev insertAll (types pairs : NamedTypes) : NamedTypes :=
  pairs.foldl (fun types (name, d) => NamedTypes.insert types name d) types

theorem mem_insertAll {e : Scalar × Descriptor} (h : e ∈ types.insertAll pairs) :
    e ∈ types ∨ ∃ p ∈ pairs, e.2 = p.2 :=
  puts_insert.mem_foldl (R := fun e p => e.2 = p.2) (fun _ => rfl) (fun _ _ _ => rfl) h

theorem prefix_keys_insert (types : NamedTypes) (name : Scalar) (d : Descriptor) :
    types.map Prod.fst <+: (types.insert name d).map Prod.fst := by
  rcases keys_insert types name d with ⟨hkeys, -⟩ | ⟨hkeys, -⟩
  · simp only [hkeys, List.prefix_refl]
  · simp only [hkeys, List.prefix_append]

theorem prefix_keys_insertAll (types pairs : NamedTypes) :
    types.map Prod.fst <+: (types.insertAll pairs).map Prod.fst := by
  induction pairs generalizing types with
  | nil => exact List.prefix_refl _
  | cons p rest ih => exact (prefix_keys_insert types p.1 p.2).trans (ih _)

/-- Every name that is set is found among the names. -/
theorem exists_key_insertAll {p : Scalar × Descriptor} (hp : p ∈ pairs) :
    ∃ k ∈ (types.insertAll pairs).map Prod.fst, k.same p.1 = true := by
  induction pairs generalizing types with
  | nil => cases hp
  | cons q rest ih =>
    rcases List.mem_cons.1 hp with rfl | hp
    · have hin : ∃ k ∈ (types.insert p.1 p.2).map Prod.fst, k.same p.1 = true := by
        rcases keys_insert types p.1 p.2 with ⟨hkeys, hk⟩ | ⟨hkeys, -⟩
        · rw [hkeys]
          exact hk
        · rw [hkeys]
          exact ⟨p.1, List.mem_append_right _ (List.mem_singleton_self _), p.1.same_self⟩
      obtain ⟨k, hk, hsame⟩ := hin
      exact ⟨k, (prefix_keys_insertAll _ rest).subset hk, hsame⟩
    · exact ih hp

theorem pairwise_insertAll (h : (types.map Prod.fst).Pairwise fun a b => a.same b = false) :
    ((types.insertAll pairs).map Prod.fst).Pairwise fun a b => a.same b = false := by
  rw [List.pairwise_map] at h ⊢
  exact puts_insert.pairwise_foldl (fun _ => id) (fun hsame hsame' => Scalar.same_trans hsame' hsame) pairs h

end NamedTypes

namespace Mapper

variable {m : Mapper}

/-- The named types of a mapper: their names are pairwise different, those of all schemas are among
them, and all of the types are linked. -/
structure Defines (m : Mapper) (types : NamedTypes) : Prop where
  apart : (types.map Prod.fst).Pairwise fun a b => a.same b = false
  covers : ∀ e ∈ m.names, ∃ k ∈ types.map Prod.fst, k.same e.2 = true
  linked : ∀ e ∈ types, m.Linked e.2

theorem namedTypes_defines : Gives m.MemoLinked m.namedTypes m.Defines := by
  have hpairs : Gives m.MemoLinked (m.names.mapM fun e => do return (e.2, ← m.mapType e.1))
      (List.Forall₂ (fun e p => p.1 = e.2 ∧ m.Linked p.2) m.names) :=
    .mapM fun e _ => (m.upholds_linked.mapType e.1).bind fun d hd => .pure ⟨rfl, hd⟩
  refine hpairs.bind fun pairs hall => .pure ?_
  constructor
  case apart => exact NamedTypes.pairwise_insertAll .nil
  case covers =>
    intro e he
    obtain ⟨p, hp, hname, -⟩ := Outcome.exists_mem_of_forall₂ hall he
    rw [← hname]
    exact NamedTypes.exists_key_insertAll hp
  case linked =>
    intro e he
    obtain he | ⟨p, hp, heq⟩ := NamedTypes.mem_insertAll he
    · cases he
    · rw [heq]
      exact Outcome.forall_mem_of_forall₂ (hall.imp fun _ _ h => h.2) p hp

end Mapper

/-! ### Endpoints -/

/-- The types that a wire format goes by. -/
def Codec.descriptors (c : Codec) : List Descriptor := c.type :: c.types.map Prod.snd

/-- All types of an endpoint. -/
def Endpoint.descriptors (e : Endpoint) : List Descriptor :=
  (e.body.map (·.type)).toList ++ e.responses.filterMap (·.type) ++ e.codecs.flatMap (·.descriptors)

/-- All types of an API. -/
def Api.descriptors (api : Api) : List Descriptor :=
  api.types.map Prod.snd ++ api.endpoints.flatMap (·.descriptors)

section
variable {m : Mapper}

theorem Parameter.codec_linked (p : Parameter) :
    Gives m.MemoLinked (p.codec m) fun c => c.parameter = p ∧ ∀ d ∈ c.descriptors, m.Linked d := by
  refine (m.upholds_linked.codec p).mono fun c ⟨hparameter, htype, htypes⟩ => ⟨hparameter, ?_⟩
  exact List.forall_mem_cons.2 ⟨htype, List.forall_mem_map.2 htypes⟩

theorem Endpoint.response_linked (r : Response) :
    Gives m.MemoLinked (Endpoint.response m r) fun r => ∀ d ∈ r.type, m.Linked d := by
  have hsome : ∀ id, Gives m.MemoLinked (some <$> m.mapUse id) fun found => ∀ d ∈ found, m.Linked d := by
    intro id
    rw [map_eq_pure_bind]
    exact (m.upholds_linked.mapUse id).bind fun d hd => .pure fun _ he => Option.some.inj he ▸ hd
  unfold Endpoint.response
  split
  · split
    · exact (Gives.pure nofun).bind fun _ h => .pure h
    · exact (hsome _).bind fun _ h => .pure h
  · exact (Gives.pure nofun).bind fun _ h => .pure h

/-- An endpoint has its operation with a wire format for each parameter, and types that are linked. -/
structure Endpoint.Made (m : Mapper) (op : Operation) (e : Endpoint) : Prop where
  operation_eq : e.operation = op
  parameters_eq : e.codecs.map (·.parameter) = op.parameters
  linked : ∀ d ∈ e.descriptors, m.Linked d

theorem Endpoint.ofOperation_made (op : Operation) :
    Gives m.MemoLinked (Endpoint.ofOperation m op) (Endpoint.Made m op) := by
  have hcodecs : Gives m.MemoLinked (op.parameters.mapM (·.codec m))
      (List.Forall₂ (fun p c => c.parameter = p ∧ ∀ d ∈ c.descriptors, m.Linked d) op.parameters) :=
    .mapM fun p _ => p.codec_linked
  have hresponses : Gives m.MemoLinked (op.responses.mapM (Endpoint.response m))
      (List.Forall₂ (fun _ r => ∀ d ∈ r.type, m.Linked d) op.responses) :=
    .mapM fun r _ => response_linked r
  have hmade : ∀ {codecs body responses},
      List.Forall₂ (fun p c => c.parameter = p ∧ ∀ d ∈ Codec.descriptors c, m.Linked d)
        op.parameters codecs → (∀ b ∈ body, m.Linked (RequestBody.type b)) →
      List.Forall₂ (fun _ r => ∀ d ∈ TypedResponse.type r, m.Linked d) op.responses responses →
        Endpoint.Made m op { operation := op, codecs, body, responses } := by
    intro codecs body responses hc hb hr
    refine ⟨rfl, ?_, fun d hd => ?_⟩
    · rw [← List.forall₂_eq_eq_eq, List.forall₂_map_left_iff]
      exact (hc.imp fun _ _ h => h.1.symm).flip.imp fun _ _ h => h.symm
    · rw [descriptors, List.mem_append, List.mem_append] at hd
      rcases hd with (hd | hd) | hd
      · obtain ⟨b, hb', rfl⟩ := Option.map_eq_some_iff.1 (Option.mem_toList.1 hd)
        exact hb b hb'
      · obtain ⟨r, hr', hd⟩ := List.mem_filterMap.1 hd
        exact Outcome.forall_mem_of_forall₂ hr r hr' d hd
      · obtain ⟨c, hc', hd⟩ := List.mem_flatMap.1 hd
        exact Outcome.forall_mem_of_forall₂ (hc.imp fun _ _ h => h.2) c hc' d hd
  refine hcodecs.bind fun codecs hc => ?_
  dsimp only
  split
  · next id _ =>
    refine (m.upholds_linked.mapUse id).bind fun type htype => ?_
    have hbody : ∀ b ∈ some ({
        contentType := op.bodyContentType, required := op.bodyRequired, type } : RequestBody),
        m.Linked b.type := fun _ hb => Option.some.inj hb ▸ htype
    exact (Gives.pure hbody).bind fun body hb => hresponses.bind fun responses hr =>
      .pure (hmade hc hb hr)
  · exact (Gives.pure nofun).bind fun body hb => hresponses.bind fun responses hr =>
      .pure (hmade hc hb hr)

end

/-! ### The API of a document -/

namespace Api

/-- What mapping makes of the operations of a document. -/
structure Mapped (m : Mapper) (ops : List Operation) (types : NamedTypes)
    (endpoints : List Endpoint) : Prop where
  defines : m.Defines types
  made : List.Forall₂ (Endpoint.Made m) ops endpoints

theorem mapAll_mapped {m : Mapper} (ops : List Operation) :
    Gives m.MemoLinked (mapAll m ops) fun mapped => Mapped m ops mapped.1 mapped.2 := by
  refine Mapper.namedTypes_defines.bind fun types htypes => ?_
  exact (Gives.mapM fun op _ => Endpoint.ofOperation_made op).bind fun endpoints hmade =>
    .pure ⟨htypes, hmade⟩

variable {doc : Value} {config : Config} {api : Api}

/-- The steps by which an API was made. -/
theorem build_ok (h : (build doc config).result = .ok api) :
    ∃ ops m, (Operation.parseAll doc).result = .ok ops ∧ Mapped m ops api.types api.endpoints ∧
      NameTable.assign config.naming (api.types.map Prod.fst) ops = .ok api.names := by
  obtain ⟨ops, hops, h⟩ := Traced.bind_ok.1 h
  obtain ⟨table, -, h⟩ := Traced.bind_ok.1 h
  obtain ⟨m, -, h⟩ := Traced.bind_ok.1 h
  obtain ⟨⟨types, endpoints⟩, hmapped, h⟩ := Traced.bind_ok.1 h
  obtain ⟨names, hnames, h⟩ := Traced.bind_ok.1 h
  obtain ⟨_, -, h⟩ := Traced.bind_ok.1 h
  obtain ⟨_, -, h⟩ := Traced.bind_ok.1 h
  obtain ⟨info, -, h⟩ := Traced.bind_ok.1 h
  obtain ⟨_, -, h⟩ := Traced.bind_ok.1 h
  obtain ⟨schemes, -, h⟩ := Traced.bind_ok.1 h
  cases h
  exact ⟨ops, m, hops, (mapAll_mapped ops {} _ _ nofun (Prod.ext hmapped rfl)).2, hnames⟩

end Api
end OpenApi
