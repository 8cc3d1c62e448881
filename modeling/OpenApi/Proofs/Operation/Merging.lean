import Mathlib.Data.List.ReduceOption
import OpenApi.Proofs.Operation.Places

/-!
The parameters of an operation are those of its path and its own, read one after the other. Of several with
one name and location the last is left, in the place of the first, so an operation can redefine what its
path declares.
-/
namespace OpenApi

namespace Parameter

variable {doc raw : Value} {pointer : String}

/-- What parameters of an operation are told apart by. -/
def key (p : Parameter) : String × Location := (p.name, p.location)

theorem isBodyPart_iff {place : Value} :
    isBodyPart place = true ↔ place = .str "body" ∨ place = .str "formData" := by
  cases place with
  | scalar s => simp [isBodyPart, Value.same, Scalar.same_str_iff]
  | list items => simp [isBodyPart, Value.same]
  | map entries => simp [isBodyPart, Value.same]

/-- Behind its references this is the body, or a field of a form. -/
def IsBodyPart (doc raw : Value) (pointer : String) : Prop :=
  ∃ entries place, Document.deref doc raw pointer = .ok (.map entries, place) ∧
    (Entries.get? entries "in" = some (.str "body") ∨ Entries.get? entries "in" = some (.str "formData"))

/-- Only bodies and form fields are read as none. -/
theorem parse_eq_none_iff {p : Option Parameter} (h : parse doc raw pointer = .ok p) :
    p = none ↔ IsBodyPart doc raw pointer := by
  obtain ⟨⟨param, place⟩, hderef, h⟩ := Outcome.bind_ok.1 h
  dsimp only at h
  split at h
  · next entries =>
    have hiff : IsBodyPart doc raw pointer ↔ ∃ found, Entries.get? entries "in" = some found ∧
        isBodyPart found = true := by
      simp only [IsBodyPart, hderef, isBodyPart_iff, Except.ok.injEq, Prod.mk.injEq, Value.map.injEq]
      constructor
      · rintro ⟨_, _, ⟨rfl, rfl⟩, hin | hin⟩
        · exact ⟨_, hin, .inl rfl⟩
        · exact ⟨_, hin, .inr rfl⟩
      · rintro ⟨found, hin, rfl | rfl⟩
        · exact ⟨_, _, ⟨rfl, rfl⟩, .inl hin⟩
        · exact ⟨_, _, ⟨rfl, rfl⟩, .inr hin⟩
    rw [hiff]
    split at h
    · next name found hname hin =>
      simp only [hin, Option.some.injEq, exists_eq_left']
      split at h
      · next hbody =>
        cases h
        simp only [hbody]
      · next hbody =>
        split at h
        · obtain ⟨shown, -, h⟩ := Outcome.bind_ok.1 h
          cases h
        · obtain ⟨format, -, h⟩ := Outcome.bind_ok.1 h
          obtain ⟨schema, -, h⟩ := Outcome.bind_ok.1 h
          obtain ⟨name, -, h⟩ := Outcome.bind_ok.1 h
          obtain ⟨description, -, h⟩ := Outcome.bind_ok.1 h
          cases h
          simp only [reduceCtorEq, hbody, Bool.false_eq_true]
    · cases h
  · cases h

end Parameter

namespace Operation

variable {doc : Value}

/-- What stands in a list of parameters is read as a parameter, or is the body or a field of a form. -/
def ReadAs (doc : Value) (raw : RawParameter) (p : Option Parameter) : Prop :=
  Parameter.parse doc raw.1 raw.2 = .ok p ∧ (p = none ↔ Parameter.IsBodyPart doc raw.1 raw.2)

/-- Merging reads every parameter and sets them by their keys, from the first to the last. -/
theorem mergeParameters_ok {acc merged : List ((String × Location) × Parameter)}
    {params : List RawParameter} (h : (mergeParameters doc acc params).result = .ok merged) :
    ∃ parsed, List.Forall₂ (ReadAs doc) params parsed ∧
      merged = parsed.reduceOption.foldl (fun table p => Assoc.insert table p.key p) acc := by
  induction params generalizing acc with
  | nil =>
    cases h
    exact ⟨[], .nil, rfl⟩
  | cons raw rest ih =>
    obtain ⟨p, hp, h⟩ := Traced.bind_ok.1 h
    have hread : ReadAs doc raw p := ⟨hp, Parameter.parse_eq_none_iff hp⟩
    cases p with
    | some p =>
      obtain ⟨parsed, hall, hmerged⟩ := ih h
      exact ⟨some p :: parsed, .cons hread hall, by rw [List.reduceOption_cons_of_some]; exact hmerged⟩
    | none =>
      obtain ⟨_, -, h⟩ := Traced.bind_ok.1 h
      obtain ⟨parsed, hall, hmerged⟩ := ih h
      exact ⟨none :: parsed, .cons hread hall, by rw [List.reduceOption_cons_of_none]; exact hmerged⟩

/-- The parameters of an operation that is read, with those of its path before its own, bodies and form
fields aside. No two have the same name and location, and every name and location that is declared is there;
each parameter is the last one declared under its key, so one of the operation itself if there is such; and
they come in the order in which their keys are declared first. -/
theorem parse_parameters {path : Scalar} {method : String} {operation : Value} {pointer : String}
    {shared : List RawParameter} {op : Operation}
    (h : (parse doc path method operation pointer shared).result = .ok op) :
    ∃ own fromPath fromOperation, ∃ declared : List Parameter, listed operation pointer = .ok own ∧
      List.Forall₂ (ReadAs doc) shared fromPath ∧ List.Forall₂ (ReadAs doc) own fromOperation ∧
      declared = fromPath.reduceOption ++ fromOperation.reduceOption ∧
      (op.parameters.map Parameter.key).Nodup ∧
      (∀ k, k ∈ op.parameters.map Parameter.key ↔ k ∈ declared.map Parameter.key) ∧
      (∀ p, p ∈ op.parameters ↔ Assoc.IsLast Parameter.key declared p) ∧
      (∀ p ∈ op.parameters, (∃ q ∈ fromOperation.reduceOption, q.key = p.key) →
        Assoc.IsLast Parameter.key fromOperation.reduceOption p) ∧
      op.parameters.Pairwise fun p q =>
        (declared.map Parameter.key).idxOf p.key < (declared.map Parameter.key).idxOf q.key := by
  obtain ⟨own, merged, -, hown, hmerged, -, hparams, -⟩ := parse_ok h
  obtain ⟨parsed, hall, rfl⟩ := mergeParameters_ok hmerged
  have hpath := List.forall₂_take shared.length hall
  have hoperation := List.forall₂_drop shared.length hall
  rw [List.take_left] at hpath
  rw [List.drop_left] at hoperation
  have hdeclared : parsed.reduceOption = (parsed.take shared.length).reduceOption ++
      (parsed.drop shared.length).reduceOption := by
    rw [← List.reduceOption_append, List.take_append_drop]
  have hkeys : op.parameters.map Parameter.key =
      Assoc.keys (Assoc.collect Parameter.key parsed.reduceOption) := by
    rw [hparams]
    exact Assoc.map_key_collect Parameter.key parsed.reduceOption
  have hlast : ∀ p, p ∈ op.parameters ↔ Assoc.IsLast Parameter.key parsed.reduceOption p := by
    intro p
    rw [hparams]
    exact Assoc.mem_collect_iff
  refine ⟨own, _, _, _, hown, hpath, hoperation, hdeclared, ?_, fun k => ?_, hlast, ?_, ?_⟩
  · rw [hkeys]
    exact Assoc.nodup_keys_collect _ _
  · rw [hkeys]
    exact Assoc.mem_keys_collect
  · rintro p hp ⟨q, hq, hkey⟩
    have hp := (hlast p).1 hp
    rw [hdeclared, Assoc.isLast_append] at hp
    exact hp.resolve_right fun hshared => hshared.2 q hq hkey
  · have hordered := Assoc.keys_collect_ordered Parameter.key parsed.reduceOption
    rw [← hkeys, List.pairwise_map] at hordered
    exact hordered

/-- A parameter with a name and a place. -/
def parameterAt (name place : String) (more : List (String × Value)) : Value :=
  .record ([("name", .str name), ("in", .str place)] ++ more)

/-- A document with one parameter to refer to. -/
def listing : Value :=
  .record [("components", .record [("parameters",
    .record [("Limit", parameterAt "limit" "query" [("required", .bool true)])])])]

/-- The path declares a limit twice, the operation declares it by reference. -/
def sharedLimits : List RawParameter :=
  [(parameterAt "limit" "query" [], "#/paths/~1pets/parameters/0"),
    (parameterAt "trace" "header" [], "#/paths/~1pets/parameters/1"),
    (parameterAt "limit" "query" [("deprecated", .bool true)], "#/paths/~1pets/parameters/2")]

def listPets : Value :=
  .record [("parameters", .list [parameterAt "page" "query" [],
    .record [("$ref", .str "#/components/parameters/Limit")], parameterAt "photo" "formData" [],
    parameterAt "page" "query" [("required", .bool true)]])]

theorem listPets_parameters : ∃ op, ∃ declared : List Parameter,
    (parse listing (.str "/pets") "get" listPets "#/paths/~1pets/get" sharedLimits).result = .ok op ∧
    op.parameters.map (fun p => (p.key, p.pointer)) =
      [(("limit", .query), "#/components/parameters/Limit"),
        (("trace", .header), "#/paths/~1pets/parameters/1"),
        (("page", .query), "#/paths/~1pets/get/parameters/3")] ∧
    (op.parameters.map Parameter.key).Nodup ∧
    (∀ p, p ∈ op.parameters ↔ Assoc.IsLast Parameter.key declared p) ∧
    op.parameters.Pairwise fun p q =>
      (declared.map Parameter.key).idxOf p.key < (declared.map Parameter.key).idxOf q.key := by
  have hok : ∃ op ∈ (parse listing (.str "/pets") "get" listPets "#/paths/~1pets/get"
      sharedLimits).result.toOption, op.parameters.map (fun p => (p.key, p.pointer)) =
        [(("limit", .query), "#/components/parameters/Limit"),
          (("trace", .header), "#/paths/~1pets/parameters/1"),
          (("page", .query), "#/paths/~1pets/get/parameters/3")] := by decide +kernel
  obtain ⟨op, hop, hparams⟩ := Outcome.exists_ok.2 hok
  obtain ⟨_, _, _, declared, -, -, -, -, hnodup, -, hlast, -, hordered⟩ := parse_parameters hop
  exact ⟨op, declared, hop, hparams, hnodup, hlast, hordered⟩

end Operation
end OpenApi
