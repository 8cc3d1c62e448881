import Mathlib.Data.List.Perm.Subperm
import Mathlib.Logic.Relation
import OpenApi.Proofs.Types.Order
import OpenApi.Proofs.Types.References
import OpenApi.Proofs.Value
import OpenApi.Wire.Codec

/-!
Following names. Each name leads to one type, and names that were passed are not passed again, so
following comes to an end if all names have a type: at a type that is no name, or at a name in a circle.
-/
namespace OpenApi

open Outcome (Faults)
open Relation (ReflTransGen TransGen)

/-- Where each step is the only one, what is led to from a circle is in the circle. -/
theorem circle_of_leads {α : Type} {r : α → α → Prop} (hr : Relator.RightUnique r) {a b : α}
    (h : TransGen r a a) (hlead : ReflTransGen r a b) : TransGen r b b := by
  induction hlead with
  | refl => exact h
  | tail _ hnext ih =>
    obtain ⟨e, he, hback⟩ := TransGen.head'_iff.1 ih
    exact .tail' (hr he hnext ▸ hback) hnext

namespace NamedTypes

variable {types : NamedTypes} {d d' : Descriptor}

theorem get?_of_same {a b : Scalar} (h : a.same b = true) : types.get? a = types.get? b := by
  induction types with
  | nil => rfl
  | cons e rest ih =>
    have hiff : e.1.same a = e.1.same b := Bool.eq_iff_iff.2
      ⟨fun ha => Scalar.same_trans ha h, fun hb => Scalar.same_trans hb (Scalar.same_symm h)⟩
    rw [get?, get?, hiff, ih]

/-- A name leads to the type that it stands for. -/
def Next (types : NamedTypes) (d e : Descriptor) : Prop :=
  ∃ name t, d = .reference name t ∧ types.get? name = some e

theorem Next.unique (h : types.Next d d') {e : Descriptor} (he : types.Next d e) : d' = e := by
  obtain ⟨name, t, rfl, hget⟩ := h
  obtain ⟨_, _, heq, hget'⟩ := he
  cases heq
  exact Option.some.inj (hget.symm.trans hget')

theorem chase_leads {fuel : Nat} {seen : List Scalar} {last : Option Scalar}
    (h : types.chase fuel seen d = .ok (last, d')) : ReflTransGen types.Next d d' := by
  induction fuel generalizing seen d with
  | zero => cases h
  | succ fuel ih =>
    unfold chase at h
    split at h
    · split at h
      · cases h
        exact .refl
      · split at h
        · next next hnext => exact .head ⟨_, _, rfl, hnext⟩ (ih h)
        · cases h
    · cases h
      exact .refl

theorem behind_leads (h : types.behind d = .ok d') : ReflTransGen types.Next d d' := by
  obtain ⟨⟨last, e⟩, he, rfl⟩ := Outcome.bind_pure_ok.1 h
  exact chase_leads he

/-- What holds of all named types holds of what is behind a type. -/
theorem behind_holds {Q : Descriptor → Prop} (htypes : ∀ e ∈ types, Q e.2) (hd : Q d)
    (h : types.behind d = .ok d') : Q d' := by
  rcases ReflTransGen.cases_tail_iff _ _ _ |>.1 (behind_leads h) with rfl | ⟨_, -, name, t, -, hget⟩
  · exact hd
  · obtain ⟨key, hmem, -⟩ := mem_of_get? hget
    exact htypes _ hmem

/-- A type that is no name stands behind itself. -/
theorem behind_self (h : ∀ name t, d ≠ .reference name t) : types.behind d = .ok d := by
  cases d with
  | reference name t => exact absurd rfl (h name t)
  | _ => rfl

/-- Names that lead back to themselves. -/
def Circular (types : NamedTypes) (d : Descriptor) : Prop := TransGen types.Next d d

theorem Circular.leads (h : types.Circular d) (hlead : ReflTransGen types.Next d d') :
    types.Circular d' :=
  circle_of_leads (fun _ _ _ hb hc => hb.unique hc) h hlead

theorem Circular.exists_name (h : types.Circular d) : ∃ name t, d = .reference name t := by
  obtain ⟨_, ⟨name, t, heq, -⟩, -⟩ := TransGen.head'_iff.1 h
  exact ⟨name, t, heq⟩

/-- Names are followed to the end, unless they lead in a circle. -/
theorem circular_of_behind {name : Scalar} {t : Traits} (h : types.behind d = .ok (.reference name t)) :
    types.Circular (.reference name t) := by
  have hchase : ∀ fuel seen d last,
      (∀ s ∈ seen, ∃ first, types.get? s = some first ∧ ReflTransGen types.Next first d) →
      types.chase fuel seen d = .ok (last, .reference name t) →
        types.Circular (.reference name t) := by
    intro fuel
    induction fuel with
    | zero => exact fun _ _ _ _ h => by cases h
    | succ fuel ih =>
      intro seen d last hseen h
      unfold chase at h
      split at h
      · split at h
        · next hany =>
          cases h
          obtain ⟨s, hs, hsame⟩ := List.any_eq_true.1 hany
          obtain ⟨first, hfirst, hlead⟩ := hseen s hs
          exact .head' ⟨name, t, rfl, get?_of_same hsame ▸ hfirst⟩ hlead
        · split at h
          · next next hnext =>
            refine ih _ next last (List.forall_mem_cons.2 ⟨⟨next, hnext, .refl⟩, fun s hs => ?_⟩) h
            obtain ⟨first, hfirst, hlead⟩ := hseen s hs
            exact ⟨first, hfirst, hlead.tail ⟨_, _, rfl, hnext⟩⟩
          · cases h
      · next hd =>
        cases h
        exact absurd rfl (hd name t)
  obtain ⟨⟨last, e⟩, he, rfl⟩ := Outcome.bind_pure_ok.1 h
  exact hchase _ [] _ _ (List.forall_mem_nil _) he

/-- Following names ends in a type, at a name without type, or after too many steps. -/
theorem behind_faults (types : NamedTypes) (d : Descriptor) :
    Faults (fun f => f.isReported = false) (types.behind d) := by
  have hchase : ∀ fuel seen d, Faults (fun f => f.isReported = false)
      (types.chase fuel seen d) := by
    intro fuel
    induction fuel with
    | zero => exact fun _ _ => .error rfl
    | succ fuel ih =>
      intro seen d
      unfold chase
      split
      · split
        · exact .ok
        · split
          · exact ih _ _
          · exact .error rfl
      · exact .ok
  exact (hchase _ _ _).bind fun _ _ => .ok

/-! ### Names that all have a type -/

/-- All names in a type have a type. -/
def Resolves (types : NamedTypes) : Descriptor → Prop :=
  Descriptor.AllReferences fun name _ => (types.get? name).isSome = true

/-- Names that were met: they are different, and have types. -/
structure Tracks (types : NamedTypes) (seen : List Scalar) : Prop where
  apart : seen.Pairwise fun a b => a.same b = false
  known : ∀ name ∈ seen, (types.get? name).isSome = true

theorem Tracks.nil : types.Tracks [] := ⟨.nil, List.forall_mem_nil _⟩

theorem Tracks.cons {seen : List Scalar} {name : Scalar} (h : types.Tracks seen)
    (hname : (types.get? name).isSome = true) (hnew : ¬ (seen.any (·.same name)) = true) :
    types.Tracks (name :: seen) where
  apart := by
    refine List.pairwise_cons.2 ⟨fun s hs => Bool.eq_false_iff.2 fun hsame => hnew ?_, h.apart⟩
    exact List.any_eq_true.2 ⟨s, hs, Scalar.same_symm hsame⟩
  known := List.forall_mem_cons.2 ⟨hname, h.known⟩

/-- They are no more than the types. -/
theorem Tracks.length_le {seen : List Scalar} (h : types.Tracks seen) : seen.length ≤ types.length := by
  -- no two of the names are found at one key
  let key (s : Scalar) : Option Scalar := (types.map Prod.fst).find? (·.same s)
  have hkey : ∀ s ∈ seen, ∃ k, key s = some k := by
    intro s hs
    obtain ⟨d, hd⟩ := Option.isSome_iff_exists.1 (h.known s hs)
    obtain ⟨k, hmem, hsame⟩ := mem_of_get? hd
    exact Option.isSome_iff_exists.1 (List.find?_isSome.2 ⟨k, List.mem_map_of_mem hmem, hsame⟩)
  have hnodup : (seen.map key).Nodup := by
    rw [List.Nodup, List.pairwise_map]
    refine h.apart.imp_of_mem fun {a b} ha hb hab heq => ?_
    obtain ⟨k, hk⟩ := hkey a ha
    have hka := List.find?_some (p := fun k : Scalar => k.same a) hk
    have hkb := List.find?_some (p := fun k : Scalar => k.same b) (heq.symm.trans hk)
    rw [Scalar.same_trans (Scalar.same_symm hka) hkb] at hab
    cases hab
  have hsub : ∀ k ∈ seen.map key, k ∈ (types.map Prod.fst).map some := by
    intro k hk
    obtain ⟨s, hs, rfl⟩ := List.mem_map.1 hk
    obtain ⟨k, hk⟩ := hkey s hs
    exact List.mem_map.2 ⟨k, List.mem_of_find?_eq_some hk, hk.symm⟩
  simpa using (hnodup.subperm hsub).length_le

theorem Resolves.next (htypes : ∀ e ∈ types, types.Resolves e.2) (h : types.Next d d') : types.Resolves d' := by
  obtain ⟨name, t, -, hget⟩ := h
  obtain ⟨key, hmem, -⟩ := mem_of_get? hget
  exact htypes _ hmem

/-- Following names comes to an end. -/
theorem exists_chase (htypes : ∀ e ∈ types, types.Resolves e.2) {fuel : Nat} {seen : List Scalar}
    (hfuel : types.length < fuel + seen.length) (h : types.Tracks seen) (hd : types.Resolves d) :
    ∃ found, types.chase fuel seen d = .ok found := by
  induction fuel generalizing seen d with
  | zero =>
    have hle := h.length_le
    omega
  | succ fuel ih =>
    unfold chase
    split
    · next name t =>
      have hname := Descriptor.allReferences_reference.1 hd
      split
      · exact ⟨_, rfl⟩
      · next hnew =>
        obtain ⟨next, hnext⟩ := Option.isSome_iff_exists.1 hname
        have hlt : types.length < fuel + (name :: seen).length := by
          rw [List.length_cons]
          omega
        rw [hnext]
        exact ih hlt (h.cons hname hnew) (.next htypes ⟨name, t, rfl, hnext⟩)
    · exact ⟨_, rfl⟩

theorem exists_behindNamed (htypes : ∀ e ∈ types, types.Resolves e.2) (hd : types.Resolves d) :
    ∃ found, types.behindNamed d = .ok found :=
  exists_chase htypes (by simp) .nil hd

theorem exists_behind (htypes : ∀ e ∈ types, types.Resolves e.2) (hd : types.Resolves d) :
    ∃ d', types.behind d = .ok d' := by
  obtain ⟨found, hfound⟩ := exists_behindNamed htypes hd
  exact ⟨found.2, Outcome.bind_ok.2 ⟨found, hfound, rfl⟩⟩

end NamedTypes
end OpenApi
