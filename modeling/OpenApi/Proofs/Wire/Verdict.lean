import OpenApi.Proofs.Types.Fields
import OpenApi.Proofs.Wire.Accepted
import OpenApi.Proofs.Wire.Asking
import OpenApi.Proofs.Wire.Deep

/-!
Giving a parameter its shape ends with a shape or a refusal. Objects in brackets are entered once, whatever
circles their properties make; what can have no end is the question whether a type is a scalar, where a
union comes back to itself.
-/
namespace OpenApi

open Outcome (Faults)
open Relation (ReflTransGen)

/-- The type that has to be a scalar for a type to be written as a leaf: that of the items of an array, or
the type itself. -/
def Descriptor.asked : Descriptor → Descriptor
  | .array items _ => items
  | d => d

/-- What the check of a parameter ends with if not with a shape. -/
def Refusal (pointer : String) (endless : Prop) (f : Fault) : Prop :=
  (∃ cause, f = .parameter pointer cause) ∨ f = .exhausted ∧ endless

namespace NamedTypes

variable {types : NamedTypes} {pointer : String} {d e : Descriptor} {endless : Prop}
  {t : Traits} {named : DeepCheck} {k : Nat}

/-! ### Objects in brackets -/

/-- A member of an object, with what is behind its names. -/
def Member (types : NamedTypes) (d e : Descriptor) : Prop :=
  (∃ fields additional t, d = .object fields additional t) ∧ ∃ m ∈ d.parts, types.behind m = .ok e

/-- A type with names that all have types, and from which a leaf without an answer is reached only if it is
said to be `endless`. -/
structure Scope (types : NamedTypes) (endless : Prop) (d : Descriptor) : Prop where
  resolves : types.Resolves d
  answers : ∀ e, types.behind d = .ok e → ∀ leaf, ReflTransGen types.Member e leaf →
    types.Endless leaf.asked → endless

/-- A step of the check that is refused or goes on with the names entered so far, and maybe more. -/
structure Continues (types : NamedTypes) (pointer : String) (endless : Prop) (entered : List Scalar)
    (x : Checked (List Scalar)) : Prop where
  faults : Faults (Refusal pointer endless) x
  tracks : ∀ entered', x = .ok entered' → types.Tracks entered' ∧ entered.length ≤ entered'.length

theorem Continues.stay {entered : List Scalar} (h : types.Tracks entered) :
    types.Continues pointer endless entered (.ok entered) where
  faults := .ok
  tracks entered' heq := by
    cases heq
    exact ⟨h, Nat.le_refl _⟩

theorem Continues.bind {entered : List Scalar} {x : Checked (List Scalar)}
    {f : List Scalar → Checked (List Scalar)} (hx : types.Continues pointer endless entered x)
    (hf : ∀ entered', types.Tracks entered' → entered.length ≤ entered'.length →
      types.Continues pointer endless entered' (f entered')) :
    types.Continues pointer endless entered (x >>= f) where
  faults := hx.faults.bind fun entered' hok =>
    (hf entered' (hx.tracks _ hok).1 (hx.tracks _ hok).2).faults
  tracks last hok := by
    obtain ⟨entered', hentered, hok⟩ := Outcome.bind_ok.1 hok
    obtain ⟨htracks, hle⟩ := hx.tracks _ hentered
    obtain ⟨hlast, hle'⟩ := (hf entered' htracks hle).tracks last hok
    exact ⟨hlast, by omega⟩

theorem Continues.foldlM {ms : List Descriptor} {entered : List Scalar}
    (hms : ∀ m ∈ ms, ∀ entered, types.Tracks entered → k ≤ entered.length →
      types.Continues pointer endless entered (named entered m))
    (htracks : types.Tracks entered) (hk : k ≤ entered.length) :
    types.Continues pointer endless entered (ms.foldlM named entered) := by
  induction ms generalizing entered with
  | nil => exact .stay htracks
  | cons m rest ih =>
    obtain ⟨hm, hrest⟩ := List.forall_mem_cons.1 hms
    rw [List.foldlM_cons]
    exact (hm entered htracks hk).bind fun entered' htracks' hle => ih hrest htracks' (by omega)

section
variable (htypes : ∀ e ∈ types, types.Resolves e.2)
include htypes

theorem Scope.object {fields : List Field} {additional : Additional Descriptor}
    (h : types.Scope endless d) (he : types.behind d = .ok (.object fields additional t)) :
    types.Scope endless (.object fields additional t) where
  resolves := behind_holds htypes h.resolves he
  answers e' he' := by
    cases (behind_self (by simp)).symm.trans he'
    exact h.answers _ he

omit htypes in
theorem Scope.part {fields : List Field} {additional : Additional Descriptor}
    (h : types.Scope endless (.object fields additional t)) {m : Descriptor}
    (hm : m ∈ (Descriptor.object fields additional t).parts) : types.Scope endless m where
  resolves name t ht := h.resolves name t (Descriptor.mem_walk_of_part hm ht)
  answers e he leaf hleaf :=
    h.answers _ (behind_self (by simp)) leaf (.head ⟨⟨_, _, _, rfl⟩, m, hm, he⟩ hleaf)

/-- A leaf is refused, or it is one that is not said to have an answer. -/
theorem Scope.leaf_faults (h : types.Scope endless d) (he : types.behind d = .ok e) :
    Faults (Refusal pointer endless) (types.checkDeepLeaf pointer e) := by
  have hresolves : types.Resolves e := behind_holds htypes h.resolves he
  have hasked : ∀ {x}, e.asked = x → types.Resolves x →
      Faults (Refusal pointer endless) (types.isScalar x) := by
    rintro x rfl hx
    exact (isScalar_faults htypes hx).mono fun f hf => .inr ⟨hf.1, h.answers e he e .refl hf.2⟩
  unfold checkDeepLeaf
  split
  · exact (hasked rfl (Descriptor.allReferences_array.1 hresolves)).bind fun b _ =>
      .guard (.inl ⟨_, rfl⟩) .ok
  · next hne =>
    have heq : e.asked = e := by
      cases e with
      | array items t => exact absurd rfl (hne items t)
      | _ => rfl
    exact (hasked heq hresolves).bind fun b _ => .guard (.inl ⟨_, rfl⟩) .ok

theorem Scope.leaf_continues {entered : List Scalar} (htracks : types.Tracks entered)
    (h : types.Scope endless d) (he : types.behind d = .ok e) :
    types.Continues pointer endless entered (do
      types.checkDeepLeaf pointer e
      return entered) where
  faults := (h.leaf_faults htypes he).bind fun _ _ => .ok
  tracks entered' hok := by
    obtain ⟨_, -, rfl⟩ := Outcome.bind_pure_ok.1 hok
    exact ⟨htracks, Nat.le_refl _⟩

/-- A check of names that goes on once `k` names have been entered. -/
def Proceeds (types : NamedTypes) (pointer : String) (endless : Prop) (k : Nat) (named : DeepCheck) :
    Prop :=
  ∀ {entered name t}, types.Tracks entered → k ≤ entered.length →
    types.Scope endless (.reference name t) →
      types.Continues pointer endless entered (named entered (.reference name t))

theorem checkDeepMember_continues (hnamed : types.Proceeds pointer endless k named) (d : Descriptor)
    {entered : List Scalar} (htracks : types.Tracks entered) (hk : k ≤ entered.length)
    (hd : types.Scope endless d) :
    types.Continues pointer endless entered (checkDeepMember types pointer named entered d) := by
  induction d using memberInduction generalizing entered with
  | named name t =>
    rw [checkDeepMember]
    exact hnamed htracks hk hd
  | object fields additional t ih =>
    rw [checkDeepMember_object]
    exact .foldlM (fun m hm _ htracks hk => ih m hm htracks hk (hd.part hm)) htracks hk
  | leaf d hname hobject =>
    rw [checkDeepMember_leaf hname hobject]
    exact hd.leaf_continues htypes htracks (behind_self hname)

/-- An object is entered under a new name each time, so the names last. -/
theorem checkDeepNamed_proceeds {fuel : Nat} (hfuel : types.length < fuel + k) :
    types.Proceeds pointer endless k (checkDeepNamed types pointer fuel) := by
  induction fuel generalizing k with
  | zero =>
    intro entered name t htracks hk _
    have hle := htracks.length_le
    omega
  | succ fuel ih =>
    intro entered name t htracks hk hd
    obtain ⟨⟨last, e⟩, hfound⟩ := exists_behindNamed htypes hd.resolves
    have he : types.behind (.reference name t) = .ok e := Outcome.bind_ok.2 ⟨_, hfound, rfl⟩
    rw [checkDeepNamed, Outcome.bind_of_ok hfound]
    split
    · next last fields additional t' heq =>
      obtain ⟨rfl, rfl⟩ := Prod.mk.inj heq
      split
      · exact .stay htracks
      · next hnew =>
        have hlast : (types.get? last).isSome = true := by
          rw [get?_of_behindNamed hfound]
          rfl
        have hfuel' : types.length < fuel + (k + 1) := by omega
        have hk' : k + 1 ≤ (last :: entered).length := Nat.succ_le_succ hk
        have hobject := checkDeepMember_continues htypes (ih hfuel') _ (htracks.cons hlast hnew) hk'
          (hd.object htypes he)
        refine ⟨hobject.faults, fun entered' hok => ?_⟩
        obtain ⟨htracks', hle⟩ := hobject.tracks entered' hok
        rw [List.length_cons] at hle
        exact ⟨htracks', by omega⟩
    · next heq =>
      obtain ⟨rfl, rfl⟩ := Prod.mk.inj heq
      exact hd.leaf_continues htypes htracks he

theorem checkDeep_faults (hd : types.Scope endless d) :
    Faults (Refusal pointer endless) (types.checkDeep pointer d) := by
  have hnamed : types.Proceeds pointer endless 0 (checkDeepNamed types pointer (types.length + 2)) :=
    checkDeepNamed_proceeds htypes (by omega)
  exact (checkDeepMember_continues htypes hnamed d .nil (Nat.zero_le _) hd).faults.bind fun _ _ => .ok

end

theorem Settled.part {entered : List Scalar} {fields : List Field} {additional : Additional Descriptor}
    (h : types.Settled entered (.object fields additional t)) :
    ∀ m ∈ (Descriptor.object fields additional t).parts, types.Passed entered m := by
  have hpassed : types.Passed entered (.object fields additional t) := by
    rcases h with (⟨_, _, heq, -⟩ | hscalar) | ⟨_, _, _, -, hpassed⟩
    · cases heq
    · cases hscalar
    · exact hpassed
  cases hpassed with
  | leaf _ hleaf =>
    rcases hleaf with ⟨_, _, heq, -⟩ | hscalar
    · cases heq
    · cases hscalar
  | object hfields hadditional =>
    exact List.forall_mem_append.2 ⟨List.forall_mem_map.2 hfields, hadditional⟩

theorem Settled.exists_answer {entered : List Scalar} (h : types.Settled entered d) :
    ∃ b, types.isScalar d.asked = .ok b := by
  cases d with
  | array items t => exact ⟨true, h.isScalar_items⟩
  | _ => exact h.isScalar (by simp)

/-- A check that passed got an answer for all that it came to. -/
theorem not_endless_of_checkDeep (hd : ∀ name t, d ≠ .reference name t)
    (h : types.checkDeep pointer d = .ok ()) (hreach : ReflTransGen types.Member d e) :
    ¬ types.Endless e.asked := by
  obtain ⟨entered, hclosed, hpassed⟩ := checkDeep_ok h
  have hsettled : types.Settled entered e := by
    induction hreach with
    | refl =>
      obtain ⟨d', hd', hsettled⟩ := hclosed.behind hpassed
      cases (behind_self hd).symm.trans hd'
      exact hsettled
    | tail _ hmember ih =>
      obtain ⟨⟨fields, additional, t, rfl⟩, m, hm, hbehind⟩ := hmember
      obtain ⟨d', hd', hsettled⟩ := hclosed.behind (ih.part m hm)
      cases hbehind.symm.trans hd'
      exact hsettled
  obtain ⟨b, hb⟩ := hsettled.exists_answer
  exact fun hendless => hendless.isScalar_ne_ok hb

end NamedTypes

/-! ### Shapes -/

namespace Parameter

variable {p : Parameter} {types : NamedTypes} {d x : Descriptor}

/-- The types that have to be scalars, or not, for a parameter of a type to get its shape. -/
inductive Examines (p : Parameter) (types : NamedTypes) (d : Descriptor) : Descriptor → Prop
  | own (hstyle : p.style ≠ .deepObject) : Examines p types d d
  | items (hstyle : p.style ≠ .deepObject) : Examines p types d (Codec.items d)
  | field {f : Field} (hstyle : p.style ≠ .deepObject) (hf : f ∈ d.fields) : Examines p types d f.type
  | nested {e : Descriptor} (hstyle : p.style = .deepObject) (he : ReflTransGen types.Member d e) :
      Examines p types d e.asked

/-- For one of them there is no answer. -/
def Endless (p : Parameter) (types : NamedTypes) (d : Descriptor) : Prop :=
  ∃ e x, types.behind d = .ok e ∧ p.Examines types e x ∧ types.Endless x

theorem resolves_items (h : types.Resolves d) : types.Resolves (Codec.items d) := by
  cases d with
  | array items t => exact Descriptor.allReferences_array.1 h
  | _ =>
    refine (Descriptor.allReferences_iff_parts (by simp [Codec.items, Descriptor.any])).2 ?_
    exact List.forall_mem_nil _

theorem resolves_field (h : types.Resolves d) {f : Field} (hf : f ∈ d.fields) : types.Resolves f.type := by
  cases d with
  | object fields additional t => exact (Descriptor.allReferences_object.1 h).1 f hf
  | _ => cases hf

theorem checkFields_faults {fields : List Field} {endless : Prop}
    (htypes : ∀ e ∈ types, types.Resolves e.2) (hfields : ∀ f ∈ fields, types.Resolves f.type)
    (hquoted : ∀ f ∈ fields, f.name.inner?.isSome = true)
    (hendless : ∀ f ∈ fields, types.Endless f.type → endless) :
    Faults (Refusal p.place endless) (p.checkFields types fields) := by
  induction fields with
  | nil => exact .ok
  | cons f rest ih =>
    obtain ⟨hfield, hfields⟩ := List.forall_mem_cons.1 hfields
    obtain ⟨hquoted, hquotes⟩ := List.forall_mem_cons.1 hquoted
    obtain ⟨hasked, hendless⟩ := List.forall_mem_cons.1 hendless
    have hscalar : Faults (Refusal p.place endless) (types.isScalar f.type) :=
      (NamedTypes.isScalar_faults htypes hfield).mono fun _ hf => .inr ⟨hf.1, hasked hf.2⟩
    rw [checkFields]
    refine hscalar.bind fun b _ => ?_
    cases b with
    | true => exact ih hfields hquotes hendless
    | false =>
      obtain ⟨text, htext⟩ := Option.isSome_iff_exists.1 hquoted
      have hinner : f.name.inner = .ok text := by
        rw [Scalar.inner, htext]
        rfl
      rw [if_neg (by simp), Outcome.bind_of_ok hinner]
      exact .error (.inl ⟨_, rfl⟩)

theorem scope_of_behind {fields : List Field} {additional : Additional Descriptor} {t : Traits}
    (hstyle : p.style = .deepObject) (he : types.behind d = .ok (.object fields additional t))
    (hresolves : types.Resolves (.object fields additional t)) :
    types.Scope (p.Endless types d) (.object fields additional t) := by
  refine ⟨hresolves, fun e' he' leaf hleaf hendless => ?_⟩
  cases (NamedTypes.behind_self (by simp)).symm.trans he'
  exact ⟨_, _, he, .nested hstyle hleaf, hendless⟩

theorem isScalar_faults_of_examines (htypes : ∀ e ∈ types, types.Resolves e.2) {e x : Descriptor}
    (he : types.behind d = .ok e) (hx : p.Examines types e x) (hresolves : types.Resolves x) :
    Faults (Refusal p.place (p.Endless types d)) (types.isScalar x) :=
  (NamedTypes.isScalar_faults htypes hresolves).mono fun _ hf => .inr ⟨hf.1, e, x, he, hx, hf.2⟩

/-- A parameter is given a shape, unless it is refused or a question has no end. -/
theorem shape_faults (htypes : ∀ e ∈ types, types.Resolves e.2) (hd : types.Resolves d)
    (hquoted : d.Quotable ∧ ∀ e ∈ types, e.2.Quotable) :
    Faults (Refusal p.place (p.Endless types d)) (p.shape types d) := by
  obtain ⟨e, he⟩ := NamedTypes.exists_behind htypes hd
  have hresolves : types.Resolves e := NamedTypes.behind_holds htypes hd he
  have hquotable : e.Quotable := NamedTypes.behind_holds hquoted.2 hquoted.1 he
  have hrefused : ∀ {α : Type} {cause : ParameterFault},
      Faults (Refusal p.place (p.Endless types d)) (.error (.parameter p.place cause) : Checked α) :=
    .error (.inl ⟨_, rfl⟩)
  unfold Parameter.shape
  rw [Outcome.bind_of_ok he]
  by_cases hstyle : p.style = .deepObject
  · rw [if_pos (beq_iff_eq.2 hstyle)]
    split
    · refine .guard (.inl ⟨_, rfl⟩) ?_
      exact (NamedTypes.checkDeep_faults htypes (scope_of_behind hstyle he hresolves)).bind fun _ _ => .ok
    · exact hrefused
  · have hown := isScalar_faults_of_examines htypes he (.own hstyle) hresolves
    have hshape : Faults (Refusal p.place (p.Endless types d)) (types.shape? e) :=
      hown.bind fun b _ => by cases b <;> exact .ok
    rw [if_neg (mt beq_iff_eq.1 hstyle)]
    refine hshape.bind fun found hfound => ?_
    cases found with
    | none => exact hrefused
    | some shape =>
      refine .guard (.inl ⟨_, rfl⟩) ?_
      cases shape with
      | array =>
        rw [if_pos (by decide)]
        have hitems := isScalar_faults_of_examines htypes he (.items hstyle) (resolves_items hresolves)
        refine hitems.bind fun _ _ => .guard (.inl ⟨_, rfl⟩) ?_
        rw [if_neg (by decide)]
        exact .guard (.inl ⟨_, rfl⟩) .ok
      | object =>
        rw [if_neg (by decide), if_pos (by decide)]
        have hfields : Faults (Refusal p.place (p.Endless types d)) (p.checkFields types e.fields) := by
          refine checkFields_faults htypes (fun f hf => ?_) (fun f hf => ?_) fun f hf hendless => ?_
          · exact resolves_field hresolves hf
          · exact (Descriptor.quotable_iff.1 hquotable).1 f hf
          · exact ⟨e, f.type, he, .field hstyle hf, hendless⟩
        refine hfields.bind fun _ _ => .guard (.inl ⟨_, rfl⟩) (.guard (.inl ⟨_, rfl⟩) ?_)
        exact .guard (.inl ⟨_, rfl⟩) .ok
      | _ =>
        rw [if_neg (by decide), if_neg (by decide)]
        exact .guard (.inl ⟨_, rfl⟩) .ok

end Parameter

namespace NamedTypes

variable {types : NamedTypes} {d : Descriptor}

/-- A scalar, an array of scalars, or an object whose declared fields are scalars. -/
def Flat (types : NamedTypes) (d : Descriptor) : Prop :=
  types.isScalar d = .ok true ∨ (∃ items t, d = .array items t ∧ types.isScalar items = .ok true) ∨
    ∃ fields additional t, d = .object fields additional t ∧
      ∀ f ∈ fields, types.isScalar f.type = .ok true

theorem Flat.exists_answer (h : types.Flat d) : ∃ b, types.isScalar d = .ok b := by
  rcases h with hscalar | ⟨items, t, rfl, -⟩ | ⟨fields, additional, t, rfl, -⟩
  · exact ⟨true, hscalar⟩
  · exact ⟨false, rfl⟩
  · exact ⟨false, rfl⟩

theorem Flat.items (h : types.Flat d) : types.isScalar (Codec.items d) = .ok true := by
  rcases h with hscalar | ⟨items, t, rfl, hitems⟩ | ⟨fields, additional, t, rfl, -⟩
  · cases d with
    | array items t => cases hscalar
    | _ => rfl
  · exact hitems
  · rfl

theorem Flat.field (h : types.Flat d) : ∀ f ∈ d.fields, types.isScalar f.type = .ok true := by
  rcases h with hscalar | ⟨items, t, rfl, -⟩ | ⟨fields, additional, t, rfl, hfields⟩
  · cases d with
    | object fields additional t => cases hscalar
    | _ => exact List.forall_mem_nil _
  · exact List.forall_mem_nil _
  · exact hfields

end NamedTypes

namespace Parameter

variable {p : Parameter} {types : NamedTypes} {d : Descriptor} {shape : Shape}
  (hallows : p.style.allows p.location = true)
include hallows

theorem isFlat_of_shape {e : Descriptor} (h : p.shape types d = .ok shape) (hstyle : p.style ≠ .deepObject)
    (he : types.behind d = .ok e) : types.Flat e := by
  obtain ⟨-, -, e', -, hshape⟩ := flat_of_shape h hstyle
  have ⟨hcontent, hdeep⟩ : shape ≠ .content ∧ shape ≠ .deepObject := by
    rcases NamedTypes.shape?_cases hshape with rfl | rfl | rfl <;> decide
  cases Codec.typed_of_shape (c := ⟨p, shape, d, types⟩) hallows h with
  | content hshape => exact absurd hshape hcontent
  | scalar _ hd hscalar =>
    cases he.symm.trans hd
    exact .inl hscalar
  | array _ hd hitems =>
    cases he.symm.trans hd
    exact .inr (.inl ⟨_, _, rfl, hitems⟩)
  | object _ hd hfields =>
    cases he.symm.trans hd
    exact .inr (.inr ⟨_, _, _, rfl, hfields⟩)
  | deep hshape => exact absurd hshape hdeep

/-- A parameter that was given a shape got an answer for all that was examined. -/
theorem not_endless_of_shape (h : p.shape types d = .ok shape) : ¬ p.Endless types d := by
  rintro ⟨e, x, he, hexamined, hendless⟩
  cases hexamined with
  | own hstyle =>
    obtain ⟨b, hb⟩ := (isFlat_of_shape hallows h hstyle he).exists_answer
    exact hendless.isScalar_ne_ok hb
  | items hstyle => exact hendless.isScalar_ne_ok (isFlat_of_shape hallows h hstyle he).items
  | field hstyle hf => exact hendless.isScalar_ne_ok ((isFlat_of_shape hallows h hstyle he).field _ hf)
  | nested hstyle hreach =>
    cases Codec.typed_of_shape (c := ⟨p, shape, d, types⟩) hallows h with
    | deep _ _ hd hcheck =>
      cases he.symm.trans hd
      exact NamedTypes.not_endless_of_checkDeep (by simp) hcheck hreach hendless
    | content hshape | scalar hshape | array hshape | object hshape =>
      cases hshape.symm.trans (deep_of_shape h hstyle)

end Parameter
end OpenApi
