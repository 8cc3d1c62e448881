import OpenApi.Proofs.Wire.Following
import OpenApi.Wire.Build
import OpenApi.Wire.Decode

/-!
Reading a text as a scalar of a type. The reader goes through a type in the order in which the check for
scalars does, so unless it refuses the text it meets no fault that the check did not meet. The one
exception is an enumeration with a literal that has no text.
-/
namespace OpenApi

open Outcome (Faults)
open Relation (ReflTransGen TransGen)

/-! ### Enumerations in types -/

/-- The literals of every enumeration in a type have a text. -/
def Descriptor.Printable (d : Descriptor) : Prop :=
  ∀ base literals t, .enum base literals t ∈ d.walk → (Value.list literals).inner? ≠ none

namespace Descriptor

variable {d : Descriptor} {t : Traits}

theorem printable_any : any.Printable := by
  simp [Printable, any, walk]

theorem Printable.part {part : Descriptor} (h : d.Printable) (hpart : part ∈ d.parts) : part.Printable :=
  fun base literals t hmem => h base literals t (mem_walk_of_part hpart hmem)

end Descriptor

namespace NamedTypes

variable {types : NamedTypes} {d d' : Descriptor}

/-- Names in a circle are no scalars. -/
theorem not_isScalar_of_circular (hd : types.Circular d) : types.isScalar d ≠ .ok true := by
  intro h
  obtain ⟨e, he, hscalar⟩ := Outcome.bind_ok.1 h
  obtain ⟨_, _, rfl⟩ := (hd.leads (behind_leads he)).exists_name
  cases hscalar

/-- A scalar behind a name makes the name one. -/
theorem isScalar_of_behind (hd : types.behind d = .ok d') (h : types.isScalar d' = .ok true) :
    types.isScalar d = .ok true := by
  have hname : ∀ name t, d' ≠ .reference name t := by
    rintro name t rfl
    exact not_isScalar_of_circular (circular_of_behind hd) h
  obtain ⟨e, he, hscalar⟩ := Outcome.bind_ok.1 h
  cases (behind_self hname).symm.trans he
  exact Outcome.bind_ok.2 ⟨d', hd, hscalar⟩

/-- A member of a union is checked through `named` if it is a name. -/
def isScalarMember (named : Descriptor → Checked Bool) (m : Descriptor) : Checked Bool :=
  match m with
  | .reference name t => named (.reference name t)
  | m => isScalarWith named m

theorem allScalarWith_cons (named : Descriptor → Checked Bool) (m : Descriptor)
    (rest : List Descriptor) : allScalarWith named (m :: rest) = (do
      if ← isScalarMember named m then allScalarWith named rest else return false) := by
  cases m <;> rfl

/-! ### Members of objects in brackets -/

variable {pointer : String} {named : DeepCheck} {entered : List Scalar}

/-- Members are names, objects with members of their own, and leaves. -/
theorem memberInduction {P : Descriptor → Prop} (named : ∀ name t, P (.reference name t))
    (object : ∀ fields additional t, (∀ m ∈ (Descriptor.object fields additional t).parts, P m) →
      P (.object fields additional t))
    (leaf : ∀ d, (∀ name t, d ≠ .reference name t) → (∀ fields additional t, d ≠ .object fields additional t) →
      P d) (d : Descriptor) : P d := by
  induction d using Descriptor.partsInduction with
  | h d ih =>
    cases d with
    | reference name t => exact named name t
    | object fields additional t => exact object fields additional t ih
    | _ => exact leaf _ (by simp) (by simp)

theorem checkDeepMember_object {fields : List Field} {additional : Additional Descriptor} {t : Traits} :
    checkDeepMember types pointer named entered (.object fields additional t) =
      (Descriptor.object fields additional t).parts.foldlM (checkDeepMember types pointer named) entered := by
  have hfields : ∀ entered, checkDeepFields types pointer named entered fields =
      (fields.map (·.type)).foldlM (checkDeepMember types pointer named) entered := by
    induction fields with
    | nil =>
      intro entered
      rw [checkDeepFields]
      rfl
    | cons f rest ih =>
      intro entered
      cases f
      simp only [checkDeepFields, checkDeepField, List.map_cons, List.foldlM_cons, ih]
  have hadditional : ∀ entered, checkDeepAdditional types pointer named entered additional =
      additional.toList.foldlM (checkDeepMember types pointer named) entered := by
    intro entered
    cases additional with
    | schema d => simp [checkDeepAdditional, Additional.toList]
    | _ => simp [checkDeepAdditional, Additional.toList, pure, Except.pure]
  rw [checkDeepMember, Descriptor.parts, List.foldlM_append]
  simp only [hfields, hadditional]

theorem checkDeepMember_leaf (hname : ∀ name t, d ≠ .reference name t)
    (hobject : ∀ fields additional t, d ≠ .object fields additional t) :
    checkDeepMember types pointer named entered d = (do
      types.checkDeepLeaf pointer d
      return entered) := by
  cases d with
  | reference name t => exact absurd rfl (hname name t)
  | object fields additional t => exact absurd rfl (hobject fields additional t)
  | _ => simp only [checkDeepMember]

end NamedTypes

namespace Codec

variable {c : Codec} {d d' : Descriptor} {text : String}

/-- The literals of all enumerations that a codec may come to have a text. -/
def Printable (c : Codec) : Prop := c.type.Printable ∧ ∀ e ∈ c.types, e.2.Printable

theorem Printable.behind (hc : c.Printable) (hd : d.Printable) (h : c.behind d = .ok d') :
    d'.Printable :=
  NamedTypes.behind_holds hc.2 hd h

/-! ### The reader and the check -/

/-- What reading a text comes to, beside what the check of the type came to. A text is refused for a
scalar type only. Other faults are those of the check, unless a literal has no text. -/
inductive Follows (printable : Prop) : Checked Value → Checked Bool → Prop
  | value {v : Value} {check : Checked Bool} : Follows printable (.ok v) check
  | refused {name : String} {cause : WireFault} :
      Follows printable (.error (.wire name cause)) (.ok true)
  | fault {f : Fault} (h : f.isReported = false) : Follows printable (.error f) (.error f)
  | literal {check : Checked Bool} (h : ¬ printable) : Follows printable (.error .wrongKind) check

theorem literalText_faults (v : Value) :
    Faults (fun f => f = .wrongKind ∧ v.inner? = none) (literalText v) := by
  have htext : v.text? = none → v.inner? = none := by
    intro h
    unfold Value.text? at h
    split at h
    · unfold Scalar.text? at h
      split at h
      · cases h
      · cases h
      · exact h
    · exact h
  unfold literalText
  split
  · exact .ok
  · unfold Value.text written
    split
    · exact .ok
    · next hnone => exact .error ⟨rfl, htext hnone⟩

theorem findLiteral?_faults (text : String) (literals : List Value) :
    Faults (fun f => f = .wrongKind ∧ (Value.list literals).inner? = none)
      (findLiteral? text literals) := by
  have hfind : ∀ vs : List Value, Faults (fun f => f = .wrongKind ∧ ∃ v ∈ vs, v.inner? = none)
      (findLiteral? text vs) := by
    intro vs
    induction vs with
    | nil => exact .ok
    | cons v vs ih =>
      rw [findLiteral?]
      refine ((literalText_faults v).mono fun f hf => ?_).bind fun s _ => ?_
      · exact ⟨hf.1, v, List.mem_cons_self, hf.2⟩
      · split
        · exact .ok
        · refine ih.mono fun f hf => ?_
          obtain ⟨hwrong, w, hw, hnone⟩ := hf
          exact ⟨hwrong, w, List.mem_cons_of_mem _ hw, hnone⟩
  refine (hfind literals).mono fun f hf => ?_
  obtain ⟨hwrong, v, hv, hnone⟩ := hf
  refine ⟨hwrong, ?_⟩
  by_contra hsome
  have hv' := Value.inner?_of_mem (Option.isSome_iff_ne_none.2 hsome) hv
  rw [hnone] at hv'
  cases hv'

theorem readPrimitive_follows (printable : Prop) (p : Primitive) :
    Follows printable (c.readPrimitive text p) (.ok true) := by
  unfold readPrimitive
  split
  · split
    · exact .value
    · exact .refused
  · split
    · exact .value
    · exact .refused
  · split
    · exact .value
    · exact .refused
  · split
    · exact .value
    · split
      · exact .value
      · exact .refused
  · split
    · exact .value
    · exact .refused
  · exact .value

/-- A member of a union is read through `named` if it is a name. -/
def readMember (c : Codec) (text : String) (named : Descriptor → Checked Value) (m : Descriptor) :
    Checked Value :=
  match m with
  | .reference name t => named (.reference name t)
  | m => c.readWith text named m

theorem readFirst_cons (named : Descriptor → Checked Value) (m : Descriptor)
    (rest : List Descriptor) : c.readFirst text named (m :: rest) =
      match c.readMember text named m with
      | .error (.wire _ _) => c.readFirst text named rest
      | outcome => outcome := by
  cases m <;> rfl

theorem readFirst_follows {named : Descriptor → Checked Value} {scalar : Descriptor → Checked Bool}
    {members : List Descriptor} (h : ∀ m ∈ members,
      Follows c.Printable (c.readMember text named m) (NamedTypes.isScalarMember scalar m)) :
    Follows c.Printable (c.readFirst text named members) (NamedTypes.allScalarWith scalar members) := by
  induction members with
  | nil => exact .refused
  | cons m rest ih =>
    obtain ⟨hm, hrest⟩ := List.forall_mem_cons.1 h
    rw [readFirst_cons, NamedTypes.allScalarWith_cons]
    -- only a member that refuses the text passes on to the next, and its check passed
    generalize c.readMember text named m = read at hm
    generalize NamedTypes.isScalarMember scalar m = check at hm
    cases hm with
    | value => exact .value
    | refused => exact ih hrest
    | fault hf =>
      split
      · next heq =>
        cases heq
        cases hf
      · exact .fault hf
    | literal hc => exact .literal hc

theorem readWith_follows {named : Descriptor → Checked Value} {scalar : Descriptor → Checked Bool}
    (hnamed : ∀ d, (c.Printable → d.Printable) → Follows c.Printable (named d) (scalar d))
    (hd : c.Printable → d.Printable) :
    Follows c.Printable (c.readWith text named d) (NamedTypes.isScalarWith scalar d) := by
  induction d using Descriptor.partsInduction with
  | h d ih =>
    cases d with
    | primitive p t =>
      rw [readWith, NamedTypes.isScalarWith]
      split
      · exact .value
      · exact readPrimitive_follows _ p
    | enum base literals t =>
      have hliteral : (Value.list literals).inner? = none → ¬ c.Printable :=
        fun hnone hc => hd hc base literals t (by simp [Descriptor.walk]) hnone
      rw [readWith, NamedTypes.isScalarWith]
      split
      · exact .value
      · cases hfind : findLiteral? text literals with
        | error f =>
          obtain ⟨rfl, hnone⟩ := findLiteral?_faults text literals f hfind
          exact .literal (hliteral hnone)
        | ok found =>
          cases found with
          | some v => exact .value
          | none =>
            cases hinner : (Value.list literals).inner? with
            | none =>
              rw [show (Value.list literals).inner = .error .wrongKind by
                rw [Value.inner, hinner, written]]
              exact .literal (hliteral hinner)
            | some shown =>
              rw [show (Value.list literals).inner = .ok shown by rw [Value.inner, hinner, written]]
              exact .refused
    | union members t =>
      rw [readWith, NamedTypes.isScalarWith]
      split
      · exact .value
      · refine readFirst_follows fun m hm => ?_
        have hpart : c.Printable → m.Printable := fun hc => (hd hc).part hm
        cases m with
        | reference name t => exact hnamed _ hpart
        | _ => exact ih _ hm hpart
    | _ =>
      simp only [readWith]
      split
      · exact .value
      · exact .value

theorem readScalar_follows (text : String) (fuel : Nat) (hd : c.Printable → d.Printable) :
    Follows c.Printable (c.readScalar text fuel d) (c.types.isScalarWithin fuel d) := by
  induction fuel generalizing d with
  | zero => exact .fault rfl
  | succ fuel ih =>
    rw [readScalar, NamedTypes.isScalarWithin, behind]
    cases hbehind : c.types.behind d with
    | error f => exact .fault (NamedTypes.behind_faults c.types d f hbehind)
    | ok d' => exact readWith_follows (fun _ => ih) fun hc => hc.behind (hd hc) hbehind

/-- What a text can be refused with, or a literal without text can cause. -/
def Refuses (c : Codec) (f : Fault) : Prop :=
  (∃ name cause, f = .wire name cause) ∨ f = .wrongKind ∧ ¬ c.Printable

theorem refuses_wire (name : String) (cause : WireFault) : c.Refuses (.wire name cause) :=
  .inl ⟨name, cause, rfl⟩

/-- Reading fails as the check of the type does, or refuses the text. -/
theorem read_faults (raw : String) (hd : c.Printable → d.Printable) :
    Faults (fun f => c.Refuses f ∨ c.types.isScalar d = .error f) (c.read raw d) := by
  intro f hf
  unfold read at hf
  split at hf
  · next text _ =>
    have hfollows := readScalar_follows text (c.types.length + 2) hd
    rw [hf] at hfollows
    unfold NamedTypes.isScalar
    generalize c.types.isScalarWithin (c.types.length + 2) d = check at hfollows
    cases hfollows with
    | refused => exact .inl (refuses_wire _ _)
    | fault => exact .inr rfl
    | literal hc => exact .inl (.inr ⟨rfl, hc⟩)
  · cases hf
    exact .inl (refuses_wire _ _)

theorem read_faults_of_isScalar {b : Bool} (raw : String) (hd : c.Printable → d.Printable)
    (hcheck : c.types.isScalar d = .ok b) : Faults c.Refuses (c.read raw d) := by
  refine (read_faults raw hd).mono fun f hf => hf.resolve_right ?_
  rw [hcheck]
  exact nofun

end Codec
end OpenApi
