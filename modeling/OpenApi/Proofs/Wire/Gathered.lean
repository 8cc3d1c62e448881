import OpenApi.Proofs.Types.Totality
import OpenApi.Proofs.Wire.Following
import OpenApi.Proofs.Wire.Types

/-!
Gathering the named types of a parameter. Each round finds a name that was not found before, and there are
no more of them than the mapper has; when no name is left, every reference is to a type that was found.
References whose names have no content are passed over.
-/
namespace OpenApi

open Assoc (keys)
open Outcome (Gives Succeeds)

/-! ### The names in a type -/

namespace Descriptor

variable {d : Descriptor} {name : Scalar} {names : List Scalar}

theorem distinctNames_concat (names : List Scalar) (name : Scalar) : distinctNames (names ++ [name]) =
    if (distinctNames names).any (·.same name) then distinctNames names
    else distinctNames names ++ [name] := by
  simp [distinctNames, List.foldl_append]

theorem mem_of_mem_distinctNames (h : name ∈ distinctNames names) : name ∈ names := by
  induction names using List.reverseRecOn with
  | nil => cases h
  | append_singleton rest last ih =>
    rw [distinctNames_concat] at h
    split at h
    · exact List.mem_append_left _ (ih h)
    · exact List.mem_append.2 ((List.mem_append.1 h).imp_left ih)

theorem exists_mem_distinctNames (h : name ∈ names) : ∃ k ∈ distinctNames names, k.same name = true := by
  induction names using List.reverseRecOn with
  | nil => cases h
  | append_singleton rest last ih =>
    rw [distinctNames_concat]
    split
    · next hany =>
      rcases List.mem_append.1 h with h | h
      · exact ih h
      · rw [List.mem_singleton.1 h]
        exact List.any_eq_true.1 hany
    · rcases List.mem_append.1 h with h | h
      · obtain ⟨k, hk, hsame⟩ := ih h
        exact ⟨k, List.mem_append_left _ hk, hsame⟩
      · rw [List.mem_singleton.1 h]
        exact ⟨last, List.mem_append_right _ (List.mem_singleton_self _), last.same_self⟩

theorem exists_of_mem_references (h : name ∈ d.references) : ∃ t, .reference name t ∈ d.walk := by
  obtain ⟨e, he, hname⟩ := List.mem_filterMap.1 (mem_of_mem_distinctNames h)
  cases e with
  | reference n t =>
    dsimp only at hname
    split at hname
    · cases hname
      exact ⟨t, he⟩
    · cases hname
  | _ => cases hname

theorem exists_mem_references {t : Traits} (h : .reference name t ∈ d.walk)
    (hname : (Value.scalar name).truthy = true) : ∃ n ∈ d.references, n.same name = true :=
  exists_mem_distinctNames (List.mem_filterMap.2 ⟨_, h, if_pos hname⟩)

end Descriptor

namespace NamedTypes

theorem isSome_append {types more : NamedTypes} {name : Scalar} (h : (types.get? name).isSome = true) :
    (NamedTypes.get? (types ++ more) name).isSome = true := by
  obtain ⟨d, hd⟩ := Option.isSome_iff_exists.1 h
  obtain ⟨k, hk, hsame⟩ := mem_of_get? hd
  rw [← get?_of_same hsame]
  exact get?_isSome_of_mem_keys (Assoc.mem_keys_of_mem (List.mem_append_left _ hk))

/-- All names in a type that have content have a type. -/
def Carries (types : NamedTypes) : Descriptor → Prop :=
  Descriptor.AllReferences fun name _ => (Value.scalar name).truthy = true → (types.get? name).isSome = true

theorem Carries.of_references {types : NamedTypes} {d : Descriptor}
    (h : ∀ name ∈ d.references, (types.get? name).isSome = true) : types.Carries d := by
  intro name t ht hname
  obtain ⟨n, hn, hsame⟩ := Descriptor.exists_mem_references ht hname
  rw [← get?_of_same hsame]
  exact h n hn

/-- Types of names of which `R` is said, to which the references in them and in a type lead. -/
structure Supplies (types : NamedTypes) (R : Scalar → Descriptor → Prop) (d : Descriptor) : Prop where
  named : ∀ e ∈ types, R e.1 e.2
  carries : types.Carries d
  closed : ∀ e ∈ types, types.Carries e.2

end NamedTypes

/-- All names in a type have content. -/
def Descriptor.Worded (d : Descriptor) : Prop :=
  d.AllReferences fun name _ => (Value.scalar name).truthy = true

theorem Mapper.Linked.worded {m : Mapper} {d : Descriptor} (h : m.Linked d) (hworded : m.Worded) :
    d.Worded := by
  intro name t ht
  obtain ⟨id, hid⟩ := h name t ht
  exact hworded _ hid

theorem NamedTypes.Carries.resolves {types : NamedTypes} {d : Descriptor} (h : types.Carries d)
    (hd : d.Worded) : types.Resolves d :=
  fun name t ht => h name t ht (hd name t ht)

/-! ### Gathering -/

namespace Mapper

variable {m : Mapper} {found types : NamedTypes} {pending : List Scalar} {d : Descriptor}

/-- What was gathered so far: types of different names of schemas, whose references were followed or are
awaited. -/
structure Gathering (m : Mapper) (found : NamedTypes) (pending : List Scalar) : Prop where
  apart : (keys found).Pairwise fun a b => a.same b = false
  named : ∀ name ∈ keys found, name ∈ m.names.map Prod.snd
  awaited : ∀ name ∈ pending, name ∈ m.names.map Prod.snd
  followed : ∀ e ∈ found, ∀ name ∈ e.2.references, (found.get? name).isSome = true ∨ name ∈ pending

theorem Linked.references (h : m.Linked d) : ∀ name ∈ d.references, name ∈ m.names.map Prod.snd := by
  intro name hname
  obtain ⟨t, ht⟩ := Descriptor.exists_of_mem_references hname
  obtain ⟨id, hid⟩ := h name t ht
  exact List.mem_map_of_mem hid

theorem Gathering.length_le (h : m.Gathering found pending) : found.length ≤ m.names.length := by
  have hnodup : (keys found).Nodup := by
    refine h.apart.imp fun {a b} hab heq => ?_
    rw [heq, Scalar.same_self] at hab
    cases hab
  simpa [keys] using (hnodup.subperm h.named).length_le

section
variable {name : Scalar} {rest : List Scalar}
  (hnext : (pending.filter fun name => (found.get? name).isNone) = name :: rest)
include hnext

/-- What is pending has been found, or is pending still. -/
theorem isSome_or_mem_rest : ∀ n ∈ pending,
    (NamedTypes.get? (found ++ [(name, d)]) n).isSome = true ∨ n ∈ rest := by
  intro n hn
  by_cases hsome : (found.get? n).isSome = true
  · exact .inl (NamedTypes.isSome_append hsome)
  · have hnone : (found.get? n).isNone = true := by simpa using hsome
    have hmem : n ∈ name :: rest := hnext ▸ List.mem_filter.2 ⟨hn, hnone⟩
    rcases List.mem_cons.1 hmem with rfl | hmem
    · exact .inl (NamedTypes.get?_isSome_of_mem_keys (by simp [keys]))
    · exact .inr hmem

theorem Gathering.step (h : m.Gathering found pending) (hd : m.Linked d) :
    m.Gathering (found ++ [(name, d)]) (rest ++ d.references) := by
  have hsub : ∀ n ∈ name :: rest, n ∈ pending ∧ (found.get? n).isNone = true :=
    fun n hn => List.mem_filter.1 (hnext ▸ hn)
  have hname := hsub name List.mem_cons_self
  constructor
  case apart =>
    rw [Assoc.keys_append, List.pairwise_append]
    refine ⟨h.apart, List.pairwise_singleton _ _, fun k hk n hn => ?_⟩
    obtain rfl : n = name := List.mem_singleton.1 hn
    refine Bool.eq_false_iff.2 fun hsame => ?_
    have hsome := NamedTypes.get?_isSome_of_mem_keys hk
    rw [NamedTypes.get?_of_same hsame, Option.isSome_iff_ne_none] at hsome
    exact hsome (Option.isNone_iff_eq_none.1 hname.2)
  case named =>
    rw [Assoc.keys_append]
    exact List.forall_mem_append.2 ⟨h.named, List.forall_mem_singleton.2 (h.awaited name hname.1)⟩
  case awaited =>
    exact List.forall_mem_append.2
      ⟨fun n hn => h.awaited n (hsub n (List.mem_cons_of_mem _ hn)).1, hd.references⟩
  case followed =>
    refine List.forall_mem_append.2 ⟨fun e he n hn => ?_, ?_⟩
    · rcases h.followed e he n hn with hsome | hpending
      · exact .inl (NamedTypes.isSome_append hsome)
      · exact (isSome_or_mem_rest hnext n hpending).imp_right (List.mem_append_left _)
    · exact List.forall_mem_singleton.2 fun n hn => .inr (List.mem_append_right _ hn)

end

theorem namedType_succeeds (hm : m.Complete) {name : Scalar} (h : name ∈ m.names.map Prod.snd) :
    Succeeds (m.namedType name) := by
  obtain ⟨e, he, rfl⟩ := List.mem_map.1 h
  unfold namedType
  split
  · next id _ hfind =>
    exact mapType_succeeds hm (hm.name_mem id (Assoc.mem_keys_of_mem (List.mem_of_find?_eq_some hfind)))
  · next hnone => exact absurd e.2.same_self (List.find?_eq_none.1 hnone e he)

section
variable {inv : MapState → Prop} {R : Scalar → Descriptor → Prop} {st st' : MapState}
  {outcome : Checked NamedTypes} (hnamed : ∀ name, Gives inv (m.namedType name) (R name))
  (hlinked : ∀ name d, R name d → m.Linked d)
include hnamed hlinked

/-- Gathering comes to an end, with types whose references lead to no others or with the fault of a name that
has none. -/
theorem gatherTypes_outcome {fuel : Nat} (hst : inv st) (h : m.Gathering found pending)
    (hR : ∀ e ∈ found, R e.1 e.2) (hfuel : m.names.length < fuel + found.length)
    (hrun : (m.gatherTypes fuel found pending).run.run st = (outcome, st')) : inv st' ∧
      match outcome with
      | .ok types => (∀ e ∈ types, R e.1 e.2) ∧
          (∀ name, (found.get? name).isSome = true ∨ name ∈ pending → (types.get? name).isSome = true) ∧
          ∀ e ∈ types, ∀ name ∈ e.2.references, (types.get? name).isSome = true
      | .error f => ∃ name ∈ m.names.map Prod.snd, ∃ s, inv s ∧
          ((m.namedType name).run.run s).1 = .error f := by
  induction fuel generalizing found pending st with
  | zero =>
    have hle := h.length_le
    omega
  | succ fuel ih =>
    unfold gatherTypes at hrun
    cases hnext : pending.filter fun name => (found.get? name).isNone with
    | nil =>
      rw [hnext] at hrun
      have hall : ∀ name ∈ pending, (found.get? name).isSome = true := by
        intro name hname
        exact Option.isSome_iff_ne_none.2 (by simpa using List.filter_eq_nil_iff.1 hnext name hname)
      cases hrun
      refine ⟨hst, hR, fun name hname => hname.elim id (hall name), fun e he name hname => ?_⟩
      exact (h.followed e he name hname).elim id (hall name)
    | cons name rest =>
      rw [hnext] at hrun
      have hmem : name ∈ pending := (List.mem_filter.1 (hnext ▸ List.mem_cons_self)).1
      cases hd : (m.namedType name).run.run st with
      | mk o st₁ =>
        dsimp only at hrun
        cases o with
        | error f =>
          rw [ExceptT.run_bind, StateT.run_bind, hd] at hrun
          cases hrun
          exact ⟨(hnamed name).error st f st₁ hst hd, name, h.awaited name hmem, st, hst, by rw [hd]⟩
        | ok d =>
          obtain ⟨hst₁, hRd⟩ := hnamed name st d st₁ hst hd
          have hlt : m.names.length < fuel + (found ++ [(name, d)]).length := by
            rw [List.length_append, List.length_singleton]
            omega
          rw [Outcome.ran_bind_of_ok hd] at hrun
          refine (ih hst₁ (h.step hnext (hlinked name d hRd))
            (List.forall_mem_append.2 ⟨hR, List.forall_mem_singleton.2 hRd⟩) hlt hrun).imp_right fun hout => ?_
          cases outcome with
          | error f => exact hout
          | ok types =>
            refine ⟨hout.1, fun n hn => hout.2.1 n ?_, hout.2.2⟩
            rcases hn with hsome | hpending
            · exact .inl (NamedTypes.isSome_append hsome)
            · exact (isSome_or_mem_rest hnext n hpending).imp_right (List.mem_append_left _)

theorem typesWithin_outcome (hst : inv st) (hd : m.Linked d)
    (hrun : (m.typesWithin d).run.run st = (outcome, st')) : inv st' ∧
      match outcome with
      | .ok types => types.Supplies R d
      | .error f => ∃ name ∈ m.names.map Prod.snd, ∃ s, inv s ∧
          ((m.namedType name).run.run s).1 = .error f := by
  have hstart : m.Gathering [] d.references :=
    ⟨.nil, List.forall_mem_nil _, hd.references, List.forall_mem_nil _⟩
  have hfuel : m.names.length < m.names.length + 1 + ([] : NamedTypes).length := by simp
  refine (gatherTypes_outcome hnamed hlinked hst hstart (List.forall_mem_nil _) hfuel hrun).imp_right fun hout => ?_
  cases outcome with
  | error f => exact hout
  | ok types =>
    exact ⟨hout.1, .of_references fun name hname => hout.2.1 name (.inr hname),
      fun e he => .of_references (hout.2.2 e he)⟩

end

/-- The named types of a type, which all references in them and in the type lead to. -/
theorem exists_typesWithin (hm : m.Complete) (hworded : m.Worded) {st : MapState} (hst : m.MemoLinked st)
    (hd : m.Linked d) : ∃ types st', (m.typesWithin d).run.run st = (.ok types, st') ∧
      types.Resolves d ∧ ∀ e ∈ types, types.Resolves e.2 := by
  cases hrun : (m.typesWithin d).run.run st with
  | mk outcome st' =>
    have hout := (typesWithin_outcome m.upholds_linked.namedType (fun _ _ h => h) hst hd hrun).2
    cases outcome with
    | error f =>
      obtain ⟨name, hname, s, -, hfault⟩ := hout
      obtain ⟨d, t, hok⟩ := namedType_succeeds hm hname s
      rw [hok] at hfault
      cases hfault
    | ok types =>
      exact ⟨types, st', rfl, hout.carries.resolves (hd.worded hworded),
        fun e he => (hout.closed e he).resolves (Linked.worded (hout.named e he) hworded)⟩

end Mapper
end OpenApi
