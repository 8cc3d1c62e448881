import OpenApi.Proofs.Wire.Legible
import OpenApi.Proofs.Wire.Reading

/-!
Objects in brackets. The check of such an object goes through the types that it may nest and enters each
named object once; whatever path a key spells then leads through types that were checked. So a text is put
at the end of its path unless an array is to be put where an object was begun.
-/
namespace OpenApi

open Outcome (Faults bind_ok bind_pure_ok pure_ok)
open Percent (Legible)

namespace NamedTypes

variable {types : NamedTypes} {pointer : String} {d d' : Descriptor} {entered : List Scalar}
  {named : DeepCheck}

/-! ### What the check has seen -/

/-- The last of the names passed is that of the type found. -/
theorem get?_of_behindNamed {last : Scalar} (h : types.behindNamed d = .ok (some last, d')) :
    types.get? last = some d' := by
  have hchase : ∀ fuel seen d, (∀ name ∈ seen.head?, types.get? name = some d) →
      types.chase fuel seen d = .ok (some last, d') → types.get? last = some d' := by
    intro fuel
    induction fuel with
    | zero => exact fun _ _ _ h => by cases h
    | succ fuel ih =>
      intro seen d hseen h
      unfold chase at h
      split at h
      · split at h
        · injection h with h
          injection h with hlast hd
          exact hd ▸ hseen last hlast
        · split at h
          · next next hnext =>
            refine ih _ _ (fun name hname => ?_) h
            cases hname
            exact hnext
          · cases h
      · injection h with h
        injection h with hlast hd
        exact hd ▸ hseen last hlast
  exact hchase _ _ _ (fun name hname => by cases hname) h

/-- A member that is no object: an array of scalars or a scalar. -/
def IsLeaf (types : NamedTypes) (d : Descriptor) : Prop :=
  (∃ items t, d = .array items t ∧ types.isScalar items = .ok true) ∨ types.isScalar d = .ok true

theorem isLeaf_any : types.IsLeaf .any := .inr rfl

theorem checkDeepLeaf_ok (h : types.checkDeepLeaf pointer d = .ok ()) : types.IsLeaf d := by
  unfold checkDeepLeaf at h
  split at h
  · obtain ⟨b, hb, h⟩ := bind_ok.1 h
    cases b with
    | false => cases h
    | true => exact .inl ⟨_, _, rfl, hb⟩
  · obtain ⟨b, hb, h⟩ := bind_ok.1 h
    cases b with
    | false => cases h
    | true => exact .inr hb

/-- A type that the check has been through, but for the objects whose names it has `entered`. -/
inductive Passed (types : NamedTypes) (entered : List Scalar) : Descriptor → Prop
  | leaf {d : Descriptor} (hd : ∀ name t, d ≠ .reference name t) (h : types.IsLeaf d) :
      Passed types entered d
  | object {fields : List Field} {additional : Additional Descriptor} {t : Traits}
      (hfields : ∀ f ∈ fields, Passed types entered f.type)
      (hadditional : ∀ d ∈ additional.toList, Passed types entered d) :
      Passed types entered (.object fields additional t)
  | named {name : Scalar} {t : Traits} {last : Option Scalar} {d : Descriptor}
      (hd : types.behindNamed (.reference name t) = .ok (last, d)) (h : types.IsLeaf d) :
      Passed types entered (.reference name t)
  | entered {name last : Scalar} {t t' : Traits} {fields : List Field}
      {additional : Additional Descriptor}
      (hd : types.behindNamed (.reference name t) = .ok (some last, .object fields additional t'))
      (h : ∃ n ∈ entered, n.same last = true) : Passed types entered (.reference name t)

theorem passed_any : Passed types entered .any := .leaf (by simp [Descriptor.any]) isLeaf_any

theorem Passed.mono {entered entered' : List Scalar} (h : Passed types entered d)
    (hsub : entered ⊆ entered') : Passed types entered' d := by
  induction h with
  | leaf hd h => exact .leaf hd h
  | object _ _ ihfields ihadditional => exact .object ihfields ihadditional
  | named hd h => exact .named hd h
  | entered hd h =>
    obtain ⟨n, hn, hsame⟩ := h
    exact .entered hd ⟨n, hsub hn, hsame⟩

/-- The object of this name has been gone through. -/
def Entered (types : NamedTypes) (entered : List Scalar) (name : Scalar) : Prop :=
  ∃ fields additional t, types.get? name = some (.object fields additional t) ∧
    Passed types entered (.object fields additional t)

/-- The check goes on: names are entered and, when it comes back, their objects have been gone
through. -/
structure Grows (types : NamedTypes) (entered entered' : List Scalar) : Prop where
  subset : entered ⊆ entered'
  new : ∀ name ∈ entered', name ∈ entered ∨ types.Entered entered' name

namespace Grows

theorem refl {entered : List Scalar} : Grows types entered entered :=
  ⟨fun _ h => h, fun _ h => .inl h⟩

theorem trans {a b c : List Scalar} (hab : Grows types a b) (hbc : Grows types b c) :
    Grows types a c := by
  refine ⟨fun _ h => hbc.subset (hab.subset h), fun name hname => ?_⟩
  rcases hbc.new name hname with hb | hc
  · rcases hab.new name hb with ha | ⟨fields, additional, t, hget, hpassed⟩
    · exact .inl ha
    · exact .inr ⟨fields, additional, t, hget, hpassed.mono hbc.subset⟩
  · exact .inr hc

end Grows

/-- A check of types behind names that goes through what it accepts. -/
def Sound (types : NamedTypes) (named : DeepCheck) : Prop :=
  ∀ entered name t entered', named entered (.reference name t) = .ok entered' →
    types.Grows entered entered' ∧ types.Passed entered' (.reference name t)

theorem Grows.foldlM {ms : List Descriptor} {entered entered' : List Scalar}
    (hnamed : ∀ m ∈ ms, ∀ {a b}, named a m = .ok b → Grows types a b ∧ Passed types b m)
    (h : ms.foldlM named entered = .ok entered') :
    Grows types entered entered' ∧ ∀ m ∈ ms, Passed types entered' m := by
  induction ms generalizing entered with
  | nil =>
    obtain rfl := pure_ok.1 h
    exact ⟨.refl, nofun⟩
  | cons m rest ih =>
    obtain ⟨hm, hrest⟩ := List.forall_mem_cons.1 hnamed
    rw [List.foldlM_cons] at h
    obtain ⟨between, hbetween, h⟩ := bind_ok.1 h
    obtain ⟨hgrows, hpassed⟩ := hm hbetween
    obtain ⟨hgrows', hall⟩ := ih hrest h
    exact ⟨hgrows.trans hgrows', List.forall_mem_cons.2 ⟨hpassed.mono hgrows'.subset, hall⟩⟩

theorem checkDeepMember_ok (hnamed : types.Sound named) {entered entered' : List Scalar}
    (h : checkDeepMember types pointer named entered d = .ok entered') :
    Grows types entered entered' ∧ Passed types entered' d := by
  induction d using memberInduction generalizing entered entered' with
  | named name t =>
    rw [checkDeepMember] at h
    exact hnamed _ _ _ _ h
  | object fields additional t ih =>
    rw [checkDeepMember_object] at h
    obtain ⟨hgrows, hparts⟩ := Grows.foldlM ih h
    obtain ⟨hfields, hadditional⟩ := List.forall_mem_append.1 hparts
    exact ⟨hgrows, .object (List.forall_mem_map.1 hfields) hadditional⟩
  | leaf d hname hobject =>
    rw [checkDeepMember_leaf hname hobject] at h
    obtain ⟨_, hleaf, rfl⟩ := bind_pure_ok.1 h
    exact ⟨.refl, .leaf hname (checkDeepLeaf_ok hleaf)⟩

theorem sound_checkDeepNamed (fuel : Nat) : types.Sound (checkDeepNamed types pointer fuel) := by
  induction fuel with
  | zero => exact fun _ _ _ _ h => by cases h
  | succ fuel ih =>
    intro entered name t entered' h
    rw [checkDeepNamed] at h
    obtain ⟨⟨last, d⟩, hbehind, h⟩ := bind_ok.1 h
    split at h
    · next last fields additional t' heq =>
      obtain ⟨rfl, rfl⟩ := Prod.mk.inj heq
      split at h
      · next hany =>
        obtain rfl := pure_ok.1 h
        obtain ⟨n, hn, hsame⟩ := List.any_eq_true.1 hany
        exact ⟨.refl, .entered hbehind ⟨n, hn, hsame⟩⟩
      · -- the object is entered, and its name with it
        obtain ⟨hgrows, hpassed⟩ := checkDeepMember_ok ih h
        have hlast : last ∈ entered' := hgrows.subset List.mem_cons_self
        refine ⟨⟨fun n hn => hgrows.subset (List.mem_cons_of_mem _ hn), fun n hn => ?_⟩,
          .entered hbehind ⟨last, hlast, Scalar.same_self last⟩⟩
        rcases hgrows.new n hn with hmem | hentered
        · rcases List.mem_cons.1 hmem with rfl | hmem
          · exact .inr ⟨fields, additional, t', get?_of_behindNamed hbehind, hpassed⟩
          · exact .inl hmem
        · exact .inr hentered
    · next heq =>
      obtain ⟨rfl, rfl⟩ := Prod.mk.inj heq
      obtain ⟨_, hleaf, rfl⟩ := bind_pure_ok.1 h
      exact ⟨.refl, .named hbehind (checkDeepLeaf_ok hleaf)⟩

/-- Whatever name the check has entered, it has gone through its object. -/
def Closed (types : NamedTypes) (entered : List Scalar) : Prop :=
  ∀ name ∈ entered, types.Entered entered name

theorem checkDeep_ok (h : types.checkDeep pointer d = .ok ()) :
    ∃ entered, types.Closed entered ∧ types.Passed entered d := by
  obtain ⟨entered, hentered, -⟩ := bind_ok.1 h
  obtain ⟨hgrows, hpassed⟩ := checkDeepMember_ok (sound_checkDeepNamed _) hentered
  exact ⟨entered, fun name hname => (hgrows.new name hname).resolve_left nofun, hpassed⟩

/-- What the check finds behind a name: an object that it goes through, or a leaf. -/
def Settled (types : NamedTypes) (entered : List Scalar) (d : Descriptor) : Prop :=
  types.IsLeaf d ∨ ∃ fields additional t, d = .object fields additional t ∧ types.Passed entered d

theorem Closed.behind (hclosed : types.Closed entered) (h : types.Passed entered d) :
    ∃ d', types.behind d = .ok d' ∧ types.Settled entered d' := by
  cases h with
  | leaf hd h => exact ⟨d, behind_self hd, .inl h⟩
  | object hfields hadditional => exact ⟨_, rfl, .inr ⟨_, _, _, rfl, .object hfields hadditional⟩⟩
  | named hd h => exact ⟨_, bind_ok.2 ⟨_, hd, rfl⟩, .inl h⟩
  | entered hd h =>
    -- the object has been entered under the same name
    obtain ⟨n, hn, hsame⟩ := h
    obtain ⟨fields, additional, t, hget, hpassed⟩ := hclosed n hn
    rw [get?_of_same hsame, get?_of_behindNamed hd] at hget
    cases hget
    exact ⟨_, bind_ok.2 ⟨_, hd, rfl⟩, .inr ⟨_, _, _, rfl, hpassed⟩⟩

/-- The members of an object that was gone through were checked. -/
theorem Passed.member {fields : List Field} {additional : Additional Descriptor} {t : Traits}
    (h : types.Passed entered (.object fields additional t)) (key : Scalar) :
    types.Passed entered (Codec.member (.object fields additional t) key) := by
  cases h with
  | leaf _ h =>
    rcases h with ⟨items, t, heq, -⟩ | h
    · cases heq
    · cases h
  | object hfields hadditional =>
    simp only [Codec.member]
    split
    · next f hf => exact hfields f (List.mem_of_find?_eq_some hf)
    · split
      · exact hadditional _ (by simp [Additional.toList])
      · exact passed_any

theorem Settled.member (h : types.Settled entered d) :
    ∃ d', types.behind d = .ok d' ∧ ∀ key, types.Passed entered (Codec.member d' key) := by
  rcases h with (⟨items, t, rfl, -⟩ | h) | ⟨fields, additional, t, rfl, h⟩
  · exact ⟨_, rfl, fun _ => passed_any⟩
  · -- a scalar is no object, also behind a name
    obtain ⟨d', hd, h⟩ := bind_ok.1 h
    refine ⟨d', hd, fun key => ?_⟩
    cases d' with
    | object fields additional t => cases h
    | _ => exact passed_any
  · exact ⟨_, rfl, h.member⟩

theorem Settled.isScalar_items {items : Descriptor} {t : Traits}
    (h : types.Settled entered (.array items t)) : types.isScalar items = .ok true := by
  rcases h with (⟨_, _, heq, h⟩ | h) | ⟨_, _, _, heq, -⟩
  · cases heq
    exact h
  · cases h
  · cases heq

theorem Settled.isScalar (h : types.Settled entered d) (hd : ∀ items t, d ≠ .array items t) :
    ∃ b, types.isScalar d = .ok b := by
  rcases h with (⟨items, t, rfl, -⟩ | h) | ⟨_, _, _, rfl, -⟩
  · exact absurd rfl (hd items t)
  · exact ⟨true, h⟩
  · exact ⟨false, rfl⟩

end NamedTypes

/-! ### Values at the end of a path -/

/-- The value at the end of a path through nested mappings. -/
def Value.at? : Value → List String → Option Value
  | v, [] => some v
  | .map entries, key :: rest => (Entries.find? entries (.str key)).bind (at? · rest)
  | _, _ :: _ => none

theorem Entries.find?_insert_str (entries : Entries) (key : String) (other : Scalar) (v : Value) :
    (entries.insert (.str key) v).find? other =
      if other = .str key then some v else entries.find? other := by
  have hsame : ∀ {s : Scalar}, (Scalar.str key).same s = true ↔ s = .str key :=
    ⟨fun h => Scalar.same_str_iff.1 (Scalar.same_symm h), fun h => h ▸ Scalar.same_self _⟩
  induction entries with
  | nil =>
    rw [insert, find?, find?]
    by_cases h : other = .str key
    · rw [if_pos h, if_pos (hsame.2 h)]
    · rw [if_neg h, if_neg (mt hsame.1 h), find?]
  | cons e rest ih =>
    rw [insert]
    by_cases hkey : e.1.same (.str key) = true
    · rw [if_pos hkey, find?, find?, Scalar.same_str_iff.1 hkey]
      by_cases h : other = .str key
      · rw [if_pos h, if_pos (hsame.2 h)]
      · rw [if_neg h, if_neg (mt hsame.1 h), if_neg (mt hsame.1 h)]
    · rw [if_neg hkey, find?, find?, ih]
      by_cases h : other = .str key
      · rw [if_pos h, h, if_neg hkey, if_pos rfl]
      · rw [if_neg h, if_neg h]

theorem Entries.find?_insert (entries : Entries) (key other : String) (v : Value) :
    (entries.insert (.str key) v).find? (.str other) =
      if key = other then some v else entries.find? (.str other) := by
  rw [find?_insert_str]
  simp [eq_comm]

namespace Codec

variable {c : Codec} {d : Descriptor} {entered : List Scalar} {raw : String}
  {key : String} {target : Entries} {v : Value} {path : List String} {t : Traits}

/-- The type at the end of a path through nested objects. -/
def typeAt (c : Codec) : Descriptor → List String → Checked Descriptor
  | d, [] => .ok d
  | d, key :: rest => do c.typeAt (← c.behind (member (← c.behind d) (.str key))) rest

/-- What holds of the parts of a type holds of its members. -/
theorem member_holds {Q : Descriptor → Prop} (hany : Q .any) (h : ∀ part ∈ d.parts, Q part) (key : Scalar) :
    Q (member d key) := by
  cases d with
  | object fields additional t =>
    simp only [member]
    split
    · next f hf => exact h _ (List.mem_append_left _ (List.mem_map_of_mem (List.mem_of_find?_eq_some hf)))
    · split
      · exact h _ (List.mem_append_right _ List.mem_cons_self)
      · exact hany
  | _ => exact hany

theorem Printable.member (h : d.Printable) (key : Scalar) : (Codec.member d key).Printable :=
  member_holds Descriptor.printable_any (fun _ => h.part) key

/-- A path whose members were checked, for a key to be put at. -/
structure Leads (c : Codec) (entered : List Scalar) (d : Descriptor) : Prop where
  member : ∃ d', c.behind d = .ok d' ∧ ∀ key, c.types.Passed entered (Codec.member d' key)
  printable : c.Printable → d.Printable

/-- One step along a path comes to a type that was checked. -/
theorem Leads.step (hclosed : c.types.Closed entered) (h : c.Leads entered d) (key : String) :
    ∃ d' e, c.behind d = .ok d' ∧ c.behind (Codec.member d' (.str key)) = .ok e ∧
      c.types.Settled entered e ∧ c.Leads entered e := by
  obtain ⟨d', hd', hmember⟩ := h.member
  obtain ⟨e, he, hsettled⟩ := hclosed.behind (hmember (.str key))
  refine ⟨d', e, hd', he, hsettled, hsettled.member, fun hc => ?_⟩
  exact hc.behind (Printable.member (hc.behind (h.printable hc) hd') _) he

theorem at?_of_child {next : String} {rest : List String} {child : Entries}
    (hchild : (target.find? (.str key)).getD (.map []) = .map child)
    (hv : (Value.map child).at? (next :: rest) = some v) :
    (Value.map target).at? (key :: next :: rest) = some v := by
  rw [Value.at?]
  cases hfind : target.find? (.str key) with
  | none =>
    -- an object that is begun holds nothing
    rw [hfind] at hchild
    cases hchild
    cases hv
  | some old =>
    rw [hfind] at hchild
    rw [show old = .map child from hchild]
    exact hv

/-- A text is refused, or an array is to be put where something else stands. -/
theorem assign_faults (hclosed : c.types.Closed entered) (hpath : path ≠ []) (h : c.Leads entered d)
    (target : Entries) :
    Faults (fun f => c.Refuses f ∨ f = .wrongKind ∧ ∃ items t v,
      c.typeAt d path = .ok (.array items t) ∧ (Value.map target).at? path = some v ∧
        ∀ vs, v ≠ .list vs) (c.assign raw path d target) := by
  induction path generalizing d target with
  | nil => exact absurd rfl hpath
  | cons key rest ih =>
    obtain ⟨d', e, hd', he, hsettled, hleads⟩ := h.step hclosed key
    have htype : c.typeAt d (key :: rest) = c.typeAt e rest := by
      rw [typeAt, Outcome.bind_of_ok hd', Outcome.bind_of_ok he]
    cases rest with
    | nil =>
      rw [assign, Outcome.bind_of_ok hd', Outcome.bind_of_ok he]
      split
      · next items t =>
        split
        · refine ((read_faults_of_isScalar raw (fun hc => (hleads.printable hc).part List.mem_cons_self)
            hsettled.isScalar_items).mono fun f hf => .inl hf).bind fun _ _ => .ok
        · next found hfound =>
          refine .error (.inr ⟨rfl, items, t, ?_⟩)
          cases hfind : target.find? (.str key) with
          | none =>
            rw [hfind] at hfound
            exact absurd rfl (hfound [])
          | some v =>
            refine ⟨v, htype, ?_, fun vs heq => hfound vs (by rw [hfind, heq]; rfl)⟩
            rw [Value.at?, hfind]
            rfl
      · next harray =>
        obtain ⟨b, hb⟩ := hsettled.isScalar fun items t heq => harray items t heq
        exact ((read_faults_of_isScalar raw hleads.printable hb).mono fun f hf => .inl hf).bind
          fun _ _ => .ok
    | cons next rest =>
      rw [assign, Outcome.bind_of_ok hd', Outcome.bind_of_ok he]
      split
      · next child hchild =>
        refine ((ih (List.cons_ne_nil next rest) hleads child).mono fun f hf => ?_).bind fun _ _ => .ok
        refine hf.imp_right fun ⟨hwrong, items, t, v, hitems, hv, hlist⟩ => ?_
        exact ⟨hwrong, items, t, v, htype.trans hitems, at?_of_child hchild hv, hlist⟩
      · exact .error (.inl (refuses_wire _ _))

theorem typeAt_any (path : List String) : c.typeAt .any path = .ok .any := by
  induction path with
  | nil => rfl
  | cons key rest ih => exact ih

/-- An array below a type is below an object. -/
theorem behind_of_typeAt {items : Descriptor} (h : c.typeAt d (key :: path) = .ok (.array items t)) :
    ∃ fields additional t', c.behind d = .ok (.object fields additional t') := by
  rw [typeAt] at h
  obtain ⟨d', hd', h⟩ := bind_ok.1 h
  cases d' with
  | object fields additional t' => exact ⟨fields, additional, t', hd'⟩
  | _ =>
    obtain ⟨e, he, h⟩ := bind_ok.1 h
    cases he
    cases (typeAt_any path).symm.trans h

/-- A text that is read as an object stays a text. -/
theorem at?_of_read {fields : List Field} {additional : Additional Descriptor}
    (hd : c.behind d = .ok (.object fields additional t)) (h : c.read raw d = .ok v) (key : String)
    (path : List String) : v.at? (key :: path) = none := by
  unfold read at h
  split at h
  · next text _ =>
    rw [readScalar, hd] at h
    change c.readWith text (c.readScalar text (c.types.length + 1)) (.object fields additional t) = _ at h
    rw [readWith] at h
    split at h
    · cases h
      rfl
    · cases h
      rfl
  · cases h

/-- A text is put under the first key of its path: in a list, as a value, or further down. -/
theorem assign_ok {rest : List String} {target' : Entries}
    (h : c.assign raw (key :: rest) d target = .ok target') :
    ∃ d' e w, c.behind d = .ok d' ∧ c.behind (member d' (.str key)) = .ok e ∧
      target' = target.insert (.str key) w ∧
      (rest = [] ∧ ((∃ vs, w = .list vs) ∨ (∀ items t, e ≠ .array items t) ∧ c.read raw e = .ok w) ∨
        rest ≠ [] ∧ ∃ child child', (target.find? (.str key)).getD (.map []) = .map child ∧
          c.assign raw rest e child = .ok child' ∧ w = .map child') := by
  cases rest with
  | nil =>
    rw [assign] at h
    obtain ⟨d', hd', h⟩ := bind_ok.1 h
    obtain ⟨e, he, h⟩ := bind_ok.1 h
    split at h
    · split at h
      · obtain ⟨v, -, h⟩ := bind_ok.1 h
        exact ⟨d', _, _, hd', he, (pure_ok.1 h).symm, .inl ⟨rfl, .inl ⟨_, rfl⟩⟩⟩
      · cases h
    · next harray =>
      obtain ⟨v, hv, h⟩ := bind_ok.1 h
      exact ⟨d', e, v, hd', he, (pure_ok.1 h).symm, .inl ⟨rfl, .inr ⟨harray, hv⟩⟩⟩
  | cons next rest =>
    rw [assign] at h
    obtain ⟨d', hd', h⟩ := bind_ok.1 h
    obtain ⟨e, he, h⟩ := bind_ok.1 h
    split at h
    · next child hchild =>
      obtain ⟨child', hchild', h⟩ := bind_ok.1 h
      exact ⟨d', e, _, hd', he, (pure_ok.1 h).symm,
        .inr ⟨List.cons_ne_nil _ _, child, child', hchild, hchild', rfl⟩⟩
    · cases h

/-- What stands at the end of a path where an array belongs is a list, unless a text was put further
down the path; everything else was there before. -/
theorem at?_of_assign {p : List String} {target' : Entries} {items : Descriptor}
    (h : c.assign raw path d target = .ok target') (htype : c.typeAt d p = .ok (.array items t))
    (hv : (Value.map target').at? p = some v) :
    (∃ vs, v = .list vs) ∨ (∃ more, more ≠ [] ∧ path = p ++ more) ∨
      (Value.map target).at? p = some v := by
  induction path generalizing d target target' p with
  | nil => cases h
  | cons key rest ih =>
    cases p with
    | nil => exact .inr (.inl ⟨key :: rest, List.cons_ne_nil key rest, rfl⟩)
    | cons k p =>
      obtain ⟨d', e, w, hd', he, rfl, hw⟩ := assign_ok h
      rw [typeAt] at htype
      obtain ⟨a, ha, htype⟩ := bind_ok.1 htype
      obtain rfl := Except.ok.inj (hd'.symm.trans ha)
      rw [Value.at?, Entries.find?_insert] at hv
      by_cases hkey : key = k
      · subst hkey
        rw [he] at htype
        rw [if_pos rfl] at hv
        rcases hw with ⟨rfl, ⟨vs, rfl⟩ | ⟨harray, hread⟩⟩ | ⟨hrest, child, child', hchild, hassign, rfl⟩
        · cases p with
          | nil => exact .inl ⟨vs, (Option.some.inj hv).symm⟩
          | cons x p => cases hv
        · cases p with
          | nil => exact absurd (Except.ok.inj htype) (harray items t)
          | cons x p =>
            obtain ⟨fields, additional, t', hobject⟩ := behind_of_typeAt htype
            cases (at?_of_read hobject hread x p).symm.trans hv
        · cases p with
          | nil => exact .inr (.inl ⟨rest, hrest, rfl⟩)
          | cons x p =>
            rcases ih hassign htype hv with hlist | ⟨more, hmore, rfl⟩ | hold
            · exact .inl hlist
            · exact .inr (.inl ⟨more, hmore, rfl⟩)
            · exact .inr (.inr (at?_of_child hchild hold))
      · rw [if_neg hkey] at hv
        exact .inr (.inr hv)

/-! ### Runs over pairs -/

/-- A key is another parameter's, or the name is followed by parts in brackets. -/
theorem bracketPath?_cases (c : Codec) (key : List Char) : c.bracketPath? key = .ok none ∨
    ∃ more, key = c.wireName.toList ++ '[' :: more ∧ c.bracketPath? key =
      match bracketParts? (some []) more with
      | none => c.fail (.malformedPath (String.ofList key))
      | some parts => do
        return some (← parts.mapM fun part => percentDecode (String.ofList part)) := by
  unfold bracketPath?
  by_cases hown : (c.wireName.toList ++ ['[']).isPrefixOf key = true
  · obtain ⟨more, rfl⟩ := List.isPrefixOf_iff_prefix.1 hown
    refine .inr ⟨more, List.append_assoc .., ?_⟩
    dsimp only
    rw [if_pos hown, List.append_assoc, List.drop_left]
    rfl
  · exact .inl (if_neg hown)

theorem bracketPath?_ne_nil {key : List Char} (h : c.bracketPath? key = .ok (some path)) : path ≠ [] := by
  rcases c.bracketPath?_cases key with hnone | ⟨more, -, heq⟩
  · cases hnone.symm.trans h
  · rw [heq] at h
    split at h
    · cases h
    · next parts hparts =>
      obtain ⟨texts, htexts, h⟩ := bind_ok.1 h
      obtain rfl := Option.some.inj (pure_ok.1 h)
      rintro rfl
      cases Outcome.mapM_ok.1 htexts
      cases (flatMap_of_bracketParts? hparts (by simp [BracketFree])).1

/-- A key is refused, or a part of it is not made of well-formed octets. -/
theorem bracketPath?_faults {key : List Char} {whole : Prop} (h : whole → Legible key) :
    Faults (fun f => c.Refuses f ∨ f = .notUtf8 ∧ ¬ whole) (c.bracketPath? key) := by
  rcases c.bracketPath?_cases key with hnone | ⟨more, hkey, heq⟩
  · rw [hnone]
    exact .ok
  · rw [heq]
    split
    · exact .error (.inl (refuses_wire _ _))
    · next parts hparts =>
      refine .bind (.mapM fun part hpart => ?_) fun _ _ => .ok
      refine (percentDecode_faults fun hwhole => ?_).mono fun f hf => .inr hf
      rw [hkey, Percent.legible_append_cut (by decide)] at h
      rw [String.toList_ofList]
      exact legible_bracketParts? hparts (h hwhole).2 part hpart

/-- A pair for an array comes after one for a member of it. -/
def Gathers (c : Codec) (pairs : List (String × String)) : Prop :=
  ∃ first second path more items t, [first, second].Sublist pairs ∧ more ≠ [] ∧
    c.bracketPath? (plainBrackets first.1.toList) = .ok (some (path ++ more)) ∧
    c.bracketPath? (plainBrackets second.1.toList) = .ok (some path) ∧
    c.typeAt c.type path = .ok (.array items t)

/-- Where an array belongs there is a list, unless one of the pairs went further down. -/
def Gathered (c : Codec) (pairs : List (String × String)) (target : Entries) : Prop :=
  ∀ path items t v, c.typeAt c.type path = .ok (.array items t) →
    (Value.map target).at? path = some v → (∃ vs, v = .list vs) ∨ ∃ pair ∈ pairs, ∃ more, more ≠ [] ∧
      c.bracketPath? (plainBrackets pair.1.toList) = .ok (some (path ++ more))

theorem Gathered.mono {pairs pairs' : List (String × String)} (h : c.Gathered pairs target)
    (hsub : pairs ⊆ pairs') : c.Gathered pairs' target := by
  intro path items t v htype hv
  refine (h path items t v htype hv).imp_right fun ⟨pair, hpair, hmore⟩ => ?_
  exact ⟨pair, hsub hpair, hmore⟩

theorem decodeDeep_faults {whole : Prop} (hclosed : c.types.Closed entered)
    (hleads : c.Leads entered c.type) {before pairs : List (String × String)}
    (hkeys : ∀ pair ∈ pairs, whole → Legible pair.1.toList) {found : Option Entries}
    (hfound : c.Gathered before (found.getD [])) :
    Faults (fun f => (c.Refuses f ∨ f = .notUtf8 ∧ ¬ whole) ∨
      f = .wrongKind ∧ c.Gathers (before ++ pairs)) (c.decodeDeep found pairs) := by
  induction pairs generalizing before found with
  | nil => cases found <;> exact .ok
  | cons pair pairs ih =>
    obtain ⟨hkey, hkeys⟩ := List.forall_mem_cons.1 hkeys
    have hsplit : before ++ pair :: pairs = (before ++ [pair]) ++ pairs := by simp
    have hsub : before ⊆ before ++ [pair] := List.subset_append_left _ _
    rw [decodeDeep, hsplit]
    refine ((bracketPath?_faults fun hwhole => legible_plainBrackets.2 (hkey hwhole)).mono
      fun f hf => .inl hf).bind fun path? hpath => ?_
    split
    · exact ih hkeys (hfound.mono hsub)
    · next path =>
      refine ((assign_faults hclosed (bracketPath?_ne_nil hpath) hleads _).mono
        fun f hf => ?_).bind fun target' htarget => ih hkeys ?_
      · rcases hf with hf | ⟨hwrong, items, t, v, htype, hv, hlist⟩
        · exact .inl (.inl hf)
        · rcases hfound path items t v htype hv with ⟨vs, rfl⟩ | ⟨first, hfirst, more, hmore, hlong⟩
          · exact absurd rfl (hlist vs)
          · refine .inr ⟨hwrong, first, pair, path, more, items, t, ?_, hmore, hlong, hpath, htype⟩
            rw [← hsplit]
            exact (List.singleton_sublist.2 hfirst).append (List.cons_sublist_cons.2 (List.nil_sublist _))
      · intro p items t v htype hv
        rcases at?_of_assign htarget htype hv with hlist | ⟨more, hmore, rfl⟩ | hold
        · exact .inl hlist
        · exact .inr ⟨pair, by simp, more, hmore, hpath⟩
        · exact hfound.mono hsub p items t v htype hold

end Codec
end OpenApi
