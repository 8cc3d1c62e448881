import OpenApi.Proofs.Wire.Reading

/-!
Asking whether a type is written as one text. A union asks its members one by one, as long as they say yes,
and names are followed without a record of those that were passed. So the question has an answer unless a
union is asked again while it waits for its members.
-/
namespace OpenApi.NamedTypes

open Outcome (Faults bind_ok)
open Relation (ReflTransGen TransGen)

variable {types : NamedTypes} {d e m : Descriptor} {fuel : Nat} {b : Bool}
  {named : Descriptor → Checked Bool} {name : Scalar} {t : Traits}

/-! ### Answers -/

theorem isScalarWith_mono {named' : Descriptor → Checked Bool}
    (h : ∀ d b, named d = .ok b → named' d = .ok b) (hd : isScalarWith named d = .ok b) :
    isScalarWith named' d = .ok b := by
  induction d using Descriptor.partsInduction generalizing b with
  | h d ih =>
    cases d with
    | union members t =>
      rw [isScalarWith] at hd ⊢
      rw [Descriptor.parts] at ih
      induction members with
      | nil => exact hd
      | cons m rest hrest =>
        obtain ⟨hm, ih⟩ := List.forall_mem_cons.1 ih
        rw [allScalarWith_cons] at hd ⊢
        obtain ⟨scalar, hscalar, hd⟩ := bind_ok.1 hd
        have hscalar' : isScalarMember named' m = .ok scalar := by
          cases m with
          | reference name t => exact h _ _ hscalar
          | _ => exact hm hscalar
        refine bind_ok.2 ⟨scalar, hscalar', ?_⟩
        cases scalar with
        | true => exact hrest ih hd
        | false => exact hd
    | _ => exact hd

theorem isScalarWithin_mono {fuel' : Nat} (hle : fuel ≤ fuel') (h : types.isScalarWithin fuel d = .ok b) :
    types.isScalarWithin fuel' d = .ok b := by
  induction fuel generalizing fuel' d b with
  | zero => cases h
  | succ fuel ih =>
    obtain ⟨fuel', rfl⟩ : ∃ k, fuel' = k + 1 := ⟨fuel' - 1, by omega⟩
    obtain ⟨e, he, h⟩ := bind_ok.1 h
    exact bind_ok.2 ⟨e, he, isScalarWith_mono (fun _ _ => ih (by omega)) h⟩

/-- The answer for a type, however long it takes. -/
def Tells (types : NamedTypes) (d : Descriptor) (b : Bool) : Prop :=
  ∃ fuel, types.isScalarWithin fuel d = .ok b

theorem Tells.unique {b' : Bool} (h : types.Tells d b) (h' : types.Tells d b') : b = b' := by
  obtain ⟨fuel, h⟩ := h
  obtain ⟨fuel', h'⟩ := h'
  have hmax := isScalarWithin_mono (Nat.le_max_left fuel fuel') h
  exact Except.ok.inj (hmax.symm.trans (isScalarWithin_mono (Nat.le_max_right fuel fuel') h'))

theorem isScalarMember_of_ne (hm : ∀ name t, m ≠ .reference name t) :
    isScalarMember named m = isScalarWith named m := by
  cases m with
  | reference name t => exact absurd rfl (hm name t)
  | _ => rfl

theorem tells_of_member (h : isScalarMember (types.isScalarWithin fuel) m = .ok b) : types.Tells m b := by
  cases m with
  | reference name t => exact ⟨fuel, h⟩
  | _ => exact ⟨fuel + 1, bind_ok.2 ⟨_, behind_self (by simp), h⟩⟩

/-! ### Questions -/

/-- A union asks for a member if all members before it are scalars. -/
def Asks (types : NamedTypes) (d e : Descriptor) : Prop :=
  ∃ before m after t, d = .union (before ++ m :: after) t ∧ (∀ x ∈ before, types.Tells x true) ∧
    types.behind m = .ok e

/-- Asking comes to a union that asks for itself. -/
def Circling (types : NamedTypes) (d : Descriptor) : Prop :=
  ∃ u, ReflTransGen types.Asks d u ∧ TransGen types.Asks u u

/-- The question for a type has no end. -/
def Endless (types : NamedTypes) (d : Descriptor) : Prop :=
  ∃ e, types.behind d = .ok e ∧ types.Circling e

theorem Circling.of_leads (h : types.Circling e) (hlead : ReflTransGen types.Asks d e) :
    types.Circling d := by
  obtain ⟨u, hu, hcircle⟩ := h
  exact ⟨u, hlead.trans hu, hcircle⟩

theorem Circling.exists_asks (h : types.Circling d) : ∃ e, types.Asks d e ∧ types.Circling e := by
  obtain ⟨u, hlead, hcircle⟩ := h
  rcases ReflTransGen.cases_head hlead with rfl | ⟨e, he, hlead⟩
  · obtain ⟨e, he, hback⟩ := TransGen.head'_iff.1 hcircle
    exact ⟨e, he, d, hback, hcircle⟩
  · exact ⟨e, he, u, hlead, hcircle⟩

/-- An answer for all members has one for each member that is asked for. -/
theorem exists_isScalarMember {before after : List Descriptor}
    (hbefore : ∀ x ∈ before, ∀ b, isScalarMember named x = .ok b → b = true)
    (h : allScalarWith named (before ++ m :: after) = .ok b) :
    ∃ b', isScalarMember named m = .ok b' := by
  induction before with
  | nil =>
    rw [List.nil_append, allScalarWith_cons] at h
    obtain ⟨b', hm, -⟩ := bind_ok.1 h
    exact ⟨b', hm⟩
  | cons x rest ih =>
    obtain ⟨hx, hrest⟩ := List.forall_mem_cons.1 hbefore
    rw [List.cons_append, allScalarWith_cons] at h
    obtain ⟨scalar, hscalar, h⟩ := bind_ok.1 h
    rw [hx scalar hscalar] at h
    exact ih hrest h

/-- There is no answer in a circle. -/
theorem isScalarWith_ne_ok {fuel : Nat} {d : Descriptor} {b : Bool} (h : types.Circling d) :
    isScalarWith (types.isScalarWithin fuel) d ≠ .ok b := by
  intro hok
  obtain ⟨e, ⟨before, m, after, t, rfl, hbefore, hm⟩, hcircling⟩ := h.exists_asks
  rw [isScalarWith] at hok
  obtain ⟨b', hmember⟩ := exists_isScalarMember
    (fun x hx b' hb' => (tells_of_member hb').unique (hbefore x hx)) hok
  by_cases hname : ∃ name t, m = .reference name t
  · -- behind a name less fuel is left
    obtain ⟨name, t', rfl⟩ := hname
    cases fuel with
    | zero => cases hmember
    | succ fuel =>
      obtain ⟨e', he', hmember⟩ := bind_ok.1 hmember
      cases hm.symm.trans he'
      exact isScalarWith_ne_ok hcircling hmember
  · have hname : ∀ name t, m ≠ .reference name t := fun name t heq => hname ⟨name, t, heq⟩
    cases (behind_self hname).symm.trans hm
    rw [isScalarMember_of_ne hname] at hmember
    have hlt : sizeOf e < sizeOf (Descriptor.union (before ++ e :: after) t) :=
      Descriptor.sizeOf_part_lt (by simp [Descriptor.parts])
    exact isScalarWith_ne_ok hcircling hmember
termination_by (fuel, sizeOf d)

theorem Endless.isScalar_ne_ok (h : types.Endless d) : types.isScalar d ≠ .ok b := by
  obtain ⟨e, he, hcircling⟩ := h
  intro hok
  obtain ⟨e', he', hok⟩ := bind_ok.1 hok
  cases he.symm.trans he'
  exact isScalarWith_ne_ok hcircling hok

/-! ### Every question that does not come back is answered -/

section
variable (htypes : ∀ e ∈ types, types.Resolves e.2)
include htypes

/-- Asking a type asks only names that it leads to. -/
theorem isScalarWith_faults {P : Fault → Prop} {d : Descriptor} (hd : types.Resolves d)
    (hlead : ReflTransGen types.Asks e d)
    (hnamed : ∀ name t e', types.behind (.reference name t) = .ok e' → TransGen types.Asks e e' →
      Faults P (types.isScalarWithin fuel (.reference name t))) :
    Faults P (isScalarWith (types.isScalarWithin fuel) d) := by
  cases d with
  | union members t =>
    have hparts := Descriptor.allReferences_union.1 hd
    -- `before` are the members that were found to be scalars
    have hall : ∀ after before, members = before ++ after → (∀ x ∈ before, types.Tells x true) →
        Faults P (allScalarWith (types.isScalarWithin fuel) after) := by
      intro after
      induction after with
      | nil => exact fun _ _ _ => .ok
      | cons m rest ih =>
        intro before heq hbefore
        have hmem : m ∈ members := heq ▸ List.mem_append_right _ List.mem_cons_self
        obtain ⟨e', he'⟩ := exists_behind htypes (hparts m hmem)
        have hasks : types.Asks (.union members t) e' :=
          ⟨before, m, rest, t, by rw [heq], hbefore, he'⟩
        have hmember : Faults P (isScalarMember (types.isScalarWithin fuel) m) := by
          by_cases hname : ∃ name t, m = .reference name t
          · obtain ⟨name, t, rfl⟩ := hname
            exact hnamed name t e' he' (.tail' hlead hasks)
          · have hname : ∀ name t, m ≠ .reference name t := fun name t heq => hname ⟨name, t, heq⟩
            cases (behind_self hname).symm.trans he'
            have hlt : sizeOf m < sizeOf (Descriptor.union members t) :=
              Descriptor.sizeOf_part_lt hmem
            rw [isScalarMember_of_ne hname]
            exact isScalarWith_faults (hparts m hmem) (hlead.tail hasks) hnamed
        rw [allScalarWith_cons]
        refine hmember.bind fun scalar hscalar => ?_
        cases scalar with
        | false => exact .ok
        | true =>
          refine ih (before ++ [m]) (by simp [heq]) (List.forall_mem_append.2 ⟨hbefore, ?_⟩)
          exact List.forall_mem_singleton.2 (tells_of_member hscalar)
    rw [isScalarWith]
    exact hall members [] rfl (List.forall_mem_nil _)
  | _ =>
    simp only [isScalarWith]
    exact .ok
termination_by sizeOf d

omit htypes in
/-- A name leads to one of the types. -/
theorem mem_of_behind_name (h : types.behind (.reference name t) = .ok e) : e ∈ types.map Prod.snd := by
  have hnext : ∀ {c}, types.Next c e → e ∈ types.map Prod.snd := by
    rintro c ⟨_, _, -, hget⟩
    obtain ⟨key, hmem, -⟩ := mem_of_get? hget
    exact List.mem_map_of_mem hmem
  rcases ReflTransGen.cases_tail_iff _ _ _ |>.1 (behind_leads h) with rfl | ⟨_, -, hlast⟩
  · obtain ⟨_, -, hlast⟩ := TransGen.tail'_iff.1 (circular_of_behind h)
    exact hnext hlast
  · exact hnext hlast

/-- Asking fails for want of an end only. -/
theorem isScalarWithin_name_faults (he : types.behind (.reference name t) = .ok e) :
    Faults (fun f => f = .exhausted) (types.isScalarWithin fuel (.reference name t)) := by
  induction fuel generalizing name t e with
  | zero => exact .error rfl
  | succ fuel ih =>
    rw [isScalarWithin, he]
    obtain ⟨entry, hmem, rfl⟩ := List.mem_map.1 (mem_of_behind_name he)
    exact isScalarWith_faults htypes (htypes entry hmem) .refl fun _ _ _ he' _ => ih he'

/-- A name has an answer after as many names as there are types that were not asked before. -/
theorem isScalarWithin_name_answers {seen : List Descriptor}
    (he : types.behind (.reference name t) = .ok e) (hcircling : ¬ types.Circling e)
    (hseen : ∀ s ∈ seen, s ∈ types.map Prod.snd ∧ TransGen types.Asks s e) (hnodup : seen.Nodup)
    (hfuel : types.length ≤ fuel + seen.length) :
    Faults (fun _ => False) (types.isScalarWithin fuel (.reference name t)) := by
  induction fuel generalizing seen name t e with
  | zero =>
    -- there would be one type more than there are
    have hnew : (e :: seen).Nodup :=
      List.nodup_cons.2 ⟨fun hmem => hcircling ⟨e, .refl, (hseen e hmem).2⟩, hnodup⟩
    have hsub : ∀ s ∈ e :: seen, s ∈ types.map Prod.snd :=
      List.forall_mem_cons.2 ⟨mem_of_behind_name he, fun s hs => (hseen s hs).1⟩
    have hle : seen.length + 1 ≤ types.length := by
      simpa using (hnew.subperm hsub).length_le
    omega
  | succ fuel ih =>
    rw [isScalarWithin, he]
    have hmem := mem_of_behind_name he
    obtain ⟨entry, hentry, heq⟩ := List.mem_map.1 hmem
    refine isScalarWith_faults htypes (heq ▸ htypes entry hentry) .refl fun _ _ e' he' hasks => ?_
    have hcircling' : ¬ types.Circling e' := fun h => hcircling (h.of_leads hasks.to_reflTransGen)
    have hseen' : ∀ s ∈ e :: seen, s ∈ types.map Prod.snd ∧ TransGen types.Asks s e' :=
      List.forall_mem_cons.2 ⟨⟨hmem, hasks⟩, fun s hs => ⟨(hseen s hs).1, (hseen s hs).2.trans hasks⟩⟩
    refine ih he' hcircling' hseen' ?_ ?_
    · exact List.nodup_cons.2 ⟨fun hmem => hcircling ⟨e, .refl, (hseen e hmem).2⟩, hnodup⟩
    · rw [List.length_cons]
      omega

/-- The question whether a type is a scalar has an answer, or no end. -/
theorem isScalar_faults (hd : types.Resolves d) :
    Faults (fun f => f = .exhausted ∧ types.Endless d) (types.isScalar d) := by
  obtain ⟨e, he⟩ := exists_behind htypes hd
  have hasked : types.isScalar d = isScalarWith (types.isScalarWithin (types.length + 1)) e := by
    rw [isScalar, isScalarWithin, he]
    rfl
  have hresolves : types.Resolves e := behind_holds htypes hd he
  rw [hasked]
  by_cases hcircling : types.Circling e
  · refine (isScalarWith_faults htypes hresolves .refl fun _ _ _ he' _ =>
      isScalarWithin_name_faults htypes he').mono fun f hf => ⟨hf, e, he, hcircling⟩
  · have hnamed : ∀ name t e', types.behind (.reference name t) = .ok e' → TransGen types.Asks e e' →
        Faults (fun _ => False) (types.isScalarWithin (types.length + 1) (.reference name t)) := by
      intro name t e' he' hasks
      have hcircling' : ¬ types.Circling e' := fun h => hcircling (h.of_leads hasks.to_reflTransGen)
      exact isScalarWithin_name_answers htypes he' hcircling' (List.forall_mem_nil _) .nil (by simp)
    exact (isScalarWith_faults htypes hresolves .refl hnamed).mono fun _ hf => hf.elim

end

end OpenApi.NamedTypes
