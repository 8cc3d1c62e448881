import OpenApi.Proofs.Wire.Parameters

/-!
The paths into an object in brackets. A key spells a path of any length, while the check goes through each
named object once. What it leaves behind is closed: one more key leads from a type that was settled to
another. So each path ends at an object, at a scalar or at an array of scalars.
-/
namespace OpenApi
namespace NamedTypes

variable {types : NamedTypes} {d d' : Descriptor} {entered : List Scalar}

/-! ### Types that are written as one text -/

/-- A value of the type is one text: names are followed, and all members of a union are such types. -/
inductive OneText (types : NamedTypes) : Descriptor → Prop
  | primitive {p : Primitive} {t : Traits} : OneText types (.primitive p t)
  | enum {base : Primitive} {literals : List Value} {t : Traits} : OneText types (.enum base literals t)
  | union {members : List Descriptor} {t : Traits} (h : ∀ m ∈ members, OneText types m) :
      OneText types (.union members t)
  | named {name : Scalar} {t : Traits} {d : Descriptor} (hd : types.behind (.reference name t) = .ok d)
      (h : OneText types d) : OneText types (.reference name t)

theorem oneText_of_isScalarWith {named : Descriptor → Checked Bool}
    (hnamed : ∀ d, named d = .ok true → types.OneText d) (h : isScalarWith named d = .ok true) :
    types.OneText d := by
  induction d using Descriptor.partsInduction with
  | h d ih =>
    cases d with
    | primitive p t => exact .primitive
    | enum base literals t => exact .enum
    | union members t =>
      rw [isScalarWith] at h
      rw [Descriptor.parts] at ih
      refine .union ?_
      induction members with
      | nil => exact List.forall_mem_nil _
      | cons m rest hrest =>
        obtain ⟨hm, ih⟩ := List.forall_mem_cons.1 ih
        rw [allScalarWith_cons] at h
        obtain ⟨scalar, hscalar, h⟩ := Outcome.bind_ok.1 h
        cases scalar with
        | false => cases h
        | true =>
          refine List.forall_mem_cons.2 ⟨?_, hrest ih h⟩
          cases m with
          | reference name t => exact hnamed _ hscalar
          | _ => exact hm hscalar
    | _ => cases h

theorem oneText_of_isScalarWithin {fuel : Nat} (h : types.isScalarWithin fuel d = .ok true) :
    types.OneText d := by
  induction fuel generalizing d with
  | zero => cases h
  | succ fuel ih =>
    obtain ⟨e, he, h⟩ := Outcome.bind_ok.1 h
    have hone : types.OneText e := oneText_of_isScalarWith (fun _ => ih) h
    cases d with
    | reference name t => exact .named he hone
    | _ =>
      cases he
      exact hone

/-! ### The end of a path -/

/-- Names are followed to the end. -/
theorem Settled.ne_reference (hd : types.behind d = .ok d') (h : types.Settled entered d') (name : Scalar)
    (t : Traits) : d' ≠ .reference name t := by
  rintro rfl
  rcases h with (⟨_, _, heq, -⟩ | h) | ⟨_, _, _, heq, -⟩
  · cases heq
  · exact not_isScalar_of_circular (circular_of_behind hd) h
  · cases heq

/-- What a path may end at. -/
inductive Placeable (types : NamedTypes) : Descriptor → Prop
  | object {fields : List Field} {additional : Additional Descriptor} {t : Traits} :
      Placeable types (.object fields additional t)
  | scalar {d : Descriptor} (hd : ∀ name t, d ≠ .reference name t) (h : types.OneText d) : Placeable types d
  | array {items : Descriptor} {t : Traits} (h : types.OneText items) : Placeable types (.array items t)

theorem Settled.placeable (h : types.Settled entered d) (hd : ∀ name t, d ≠ .reference name t) :
    types.Placeable d := by
  rcases h with (⟨items, t, rfl, h⟩ | h) | ⟨fields, additional, t, rfl, -⟩
  · exact .array (oneText_of_isScalarWithin h)
  · exact .scalar hd (oneText_of_isScalarWithin h)
  · exact .object

end NamedTypes

namespace Codec

variable {c : Codec} {d : Descriptor} {entered : List Scalar}

/-- One more key leads to a type that was settled, so all keys of a path do. -/
theorem exists_typeAt_settled (hclosed : c.types.Closed entered) (h : c.types.Settled entered d)
    (hd : ∀ name t, d ≠ .reference name t) (path : List String) :
    ∃ e, c.typeAt d path = .ok e ∧ c.types.Settled entered e ∧ ∀ name t, e ≠ .reference name t := by
  induction path generalizing d with
  | nil => exact ⟨d, rfl, h, hd⟩
  | cons key rest ih =>
    obtain ⟨d', hd', hmember⟩ : ∃ d', c.behind d = .ok d' ∧ _ := h.member
    obtain ⟨e, he, hsettled⟩ : ∃ e, c.behind (member d' (.str key)) = .ok e ∧ _ :=
      hclosed.behind (hmember (.str key))
    obtain ⟨f, hf, hend⟩ := ih hsettled (hsettled.ne_reference he)
    have hstep : c.typeAt d (key :: rest) = c.typeAt e rest := by
      rw [typeAt, Outcome.bind_of_ok hd', Outcome.bind_of_ok he]
    exact ⟨f, hstep.trans hf, hend⟩

end Codec

namespace Parameter

/-- Whatever keys stand in brackets behind the name of a parameter, and however many, they lead to an object,
to a scalar or to an array of scalars. -/
theorem codec_paths {p : Parameter} {m : Mapper} {st st' : MapState} {c : Codec}
    (h : (p.codec m).run.run st = (.ok c, st')) (hshape : c.shape = .deepObject) (path : List String) :
    ∃ root d, c.behind c.type = .ok root ∧ c.typeAt root path = .ok d ∧ c.types.Placeable d := by
  cases typed_of_codec h with
  | deep _ _ hroot hcheck =>
    obtain ⟨entered, hclosed, hpassed⟩ := NamedTypes.checkDeep_ok hcheck
    have hsettled : c.types.Settled entered (.object _ _ _) := .inr ⟨_, _, _, rfl, hpassed⟩
    obtain ⟨d, hd, hend, hname⟩ := Codec.exists_typeAt_settled hclosed hsettled (by simp) path
    exact ⟨_, d, hroot, hd, hend.placeable hname⟩
  | content heq | scalar heq | array heq | object heq => cases heq.symm.trans hshape

/-- A search in a search in a search. -/
theorem nestedSearch_paths : ∃ ops table m, ∃ op ∈ ops, ∃ p ∈ op.parameters, ∃ c st root d,
    (Operation.parseAll nestedSearch).result = .ok ops ∧
    SchemaTable.ofDocument nestedSearch .lastWins = .ok table ∧ Mapper.ofTable table = .ok m ∧
    (p.codec m).run.run {} = (.ok c, st) ∧ c.shape = .deepObject ∧ c.behind c.type = .ok root ∧
    c.typeAt root ["except", "except", "name"] = .ok d ∧ c.types.Placeable d := by
  have hok : ∃ ops ∈ (Operation.parseAll nestedSearch).result.toOption,
      ∃ table ∈ (SchemaTable.ofDocument nestedSearch .lastWins).toOption,
        ∃ m ∈ (Mapper.ofTable table).toOption, ∃ op ∈ ops, ∃ p ∈ op.parameters,
          ∃ c ∈ ((p.codec m).run.run {}).1.toOption, c.shape = .deepObject := by decide +kernel
  obtain ⟨ops, hops, hok⟩ := Outcome.exists_ok.2 hok
  obtain ⟨table, htable, hok⟩ := Outcome.exists_ok.2 hok
  obtain ⟨m, hm, op, hop, p, hp, hok⟩ := Outcome.exists_ok.2 hok
  obtain ⟨c, hc, hshape⟩ := Outcome.exists_ok.2 hok
  have hrun : (p.codec m).run.run {} = (.ok c, ((p.codec m).run.run {}).2) := Prod.ext hc rfl
  obtain ⟨root, d, hroot, hd, hplace⟩ := codec_paths hrun hshape ["except", "except", "name"]
  exact ⟨ops, table, m, op, hop, p, hp, c, _, root, d, hops, htable, hm, hrun, hshape, hroot, hd, hplace⟩

end Parameter
end OpenApi
