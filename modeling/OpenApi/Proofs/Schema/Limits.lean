import OpenApi.Proofs.Outcome
import OpenApi.Schema.Merge

/-!
The limits of a schema as a function of the kind of limit. Limits in normal form are decided by what is
found under each kind, and merging gives such limits, each of them merged apart from all others.
-/
namespace OpenApi
namespace Constraints

variable {cs ds : Constraints} {l : Limit} {v : Value}

/-- In the order of `Limit.all`, and none of them null. -/
def Normal (cs : Constraints) : Prop := ∃ value, cs = ofFunction value

theorem lookup_filterMap (value : Limit → Value) (l : Limit) (limits : List Limit) :
    (limits.filterMap fun k => if (value k).isNull then none else some (k, value k)).lookup l =
      if l ∈ limits ∧ (value l).isNull = false then some (value l) else none := by
  induction limits with
  | nil => rfl
  | cons k rest ih =>
    rw [List.filterMap_cons]
    by_cases hk : l = k
    · subst hk
      cases hnull : (value l).isNull with
      | true => simpa [hnull] using ih
      | false => simp
    · have hbeq : (l == k) = false := by simpa using hk
      cases (value k).isNull with
      | true => simpa [hk] using ih
      | false => simpa [hk, hbeq, List.lookup_cons] using ih

theorem get?_ofFunction (value : Limit → Value) (l : Limit) :
    (ofFunction value).get? l = if (value l).isNull then none else some (value l) := by
  have hall : l ∈ Limit.all := by cases l <;> decide
  refine (lookup_filterMap value l Limit.all).trans ?_
  cases (value l).isNull with
  | true => rw [if_neg (by simp), if_pos rfl]
  | false => rw [if_pos ⟨hall, rfl⟩, if_neg (by simp)]

theorem Normal.isNull_eq_false (h : cs.Normal) (hv : cs.get? l = some v) : v.isNull = false := by
  obtain ⟨value, rfl⟩ := h
  rw [get?_ofFunction] at hv
  split at hv
  · cases hv
  · next hnull =>
    obtain rfl := Option.some.inj hv
    simpa using hnull

/-- Only what is found under each kind counts. -/
theorem Normal.ext (hc : cs.Normal) (hd : ds.Normal) (h : ∀ l, cs.get? l = ds.get? l) : cs = ds := by
  have hself : ∀ {cs : Constraints}, cs.Normal → cs = ofFunction fun l => (cs.get? l).getD .null := by
    rintro _ ⟨value, rfl⟩
    unfold ofFunction
    refine List.filterMap_congr fun l _ => ?_
    have hget : ((ofFunction value).get? l).getD .null = value l := by
      rw [get?_ofFunction]
      cases hnull : (value l).isNull with
      | false => rfl
      | true =>
        unfold Value.isNull at hnull
        split at hnull
        · next hvalue => exact hvalue.symm
        · cases hnull
    exact congrArg (fun v : Value => if v.isNull then none else some (l, v)) hget.symm
  rw [hself hc, hself hd]
  exact congrArg ofFunction (funext fun l => by rw [h])

theorem normal_ofEntries (raw : Entries) : (ofEntries raw).Normal := ⟨_, rfl⟩

end Constraints

namespace Merge

variable {policy : MergePolicy} {ns : List Node} {cs : Constraints}

/-- Every limit is merged apart from the others. -/
theorem constraints_ok_iff : constraints policy ns = .ok cs ↔
    ∃ value, (∀ l, limit policy ns l = .ok (value l)) ∧ cs = Constraints.ofFunction value := by
  have hfilter : ∀ value : Limit → Value,
      ((Limit.all.map fun l => (l, value l)).filter fun e => !e.2.isNull) =
        Constraints.ofFunction value := by
    intro value
    unfold Constraints.ofFunction
    rw [← List.filterMap_eq_filter, List.filterMap_map]
    refine List.filterMap_congr fun l _ => ?_
    cases hnull : (value l).isNull <;> simp [Option.guard, hnull]
  have hvalues : ∀ value : Limit → Value, (∀ l, limit policy ns l = .ok (value l)) →
      (Limit.all.mapM fun l => do return (l, ← limit policy ns l)) =
        .ok (Limit.all.map fun l => (l, value l)) := by
    intro value hvalue
    rw [Outcome.mapM_ok, List.forall₂_map_right_iff, List.forall₂_same]
    intro l _
    rw [hvalue]
    rfl
  unfold constraints
  constructor
  · intro h
    obtain ⟨values, hmap, h⟩ := Outcome.bind_ok.1 h
    have hall := Outcome.mapM_ok.1 hmap
    have hlimit : ∀ l, ∃ v, limit policy ns l = .ok v := by
      intro l
      obtain ⟨e, -, he⟩ := Outcome.exists_mem_of_forall₂ hall (x := l) (by cases l <;> decide)
      obtain ⟨v, hv, -⟩ := Outcome.bind_ok.1 he
      exact ⟨v, hv⟩
    choose value hvalue using hlimit
    rw [hvalues value hvalue] at hmap
    obtain rfl := Except.ok.inj hmap
    exact ⟨value, hvalue, (Outcome.pure_ok.1 h).symm.trans (hfilter value)⟩
  · rintro ⟨value, hvalue, rfl⟩
    rw [hvalues value hvalue]
    exact congrArg Except.ok (hfilter value)

theorem combine_last {pick : Value → Value → Checked Value} (hpick : ∀ v w, pick v w = .ok w)
    (values : List Value) : combine pick values = .ok (values.getLast?.getD .null) := by
  cases values with
  | nil => rfl
  | cons v rest =>
    rw [combine]
    induction rest generalizing v with
    | nil => rfl
    | cons w rest ih =>
      rw [List.foldlM_cons, hpick]
      exact (ih w).trans (by rw [List.getLast?_cons_cons])

end Merge
end OpenApi
