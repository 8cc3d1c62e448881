import OpenApi.Proofs.Types.Literals
import OpenApi.Proofs.Wire.Accepted
import OpenApi.Proofs.Wire.Reading
import OpenApi.Proofs.Wire.Route
import OpenApi.Proofs.Wire.Types

/-!
What is read is of the type that was declared. The reader takes a text for any type at all: arrays and
objects it takes as texts, and so it does names that lead in a circle. That none of these comes up is what
a parameter was checked for when it was accepted.
-/
namespace OpenApi

open Outcome (bind_ok bind_pure_ok pure_ok exists_ok mapM_ok)

/-- The values of a primitive type, as they are read. -/
def Primitive.Takes (p : Primitive) (v : Value) : Prop :=
  match p with
  | .integer | .int64 => ∃ n, v = .int n
  | .number => (∃ n, v = .int n) ∨ ∃ x, v = .float x
  | .boolean => ∃ b, v = .bool b
  | .null => v = .null
  | _ => ∃ s, v = .str s

namespace Codec

variable {c : Codec} {d : Descriptor} {v : Value} {text raw : String}

/-- The values of a type that no name stands before. Null is one if the type is nullable, or by way of a
primitive type. -/
inductive Conforms (c : Codec) : Descriptor → Value → Prop
  | null {d : Descriptor} (h : d.traits.nullable = true) : Conforms c d .null
  | primitive {p : Primitive} {t : Traits} {v : Value} (h : p.Takes v) : Conforms c (.primitive p t) v
  | literal {base : Primitive} {literals : List Value} {t : Traits} {v : Value} (hv : v ∈ literals)
      (hsome : v ≠ .null) : Conforms c (.enum base literals t) v
  | member {members : List Descriptor} {t : Traits} {m d : Descriptor} {v : Value} (hm : m ∈ members)
      (hd : c.behind m = .ok d) (h : Conforms c d v) : Conforms c (.union members t) v

/-- The values of a parameter of a flat shape. -/
inductive Fits (c : Codec) : Value → Prop
  | scalar {d : Descriptor} {v : Value} (hshape : c.shape = .scalar) (hd : c.behind c.type = .ok d)
      (h : c.Conforms d v) : Fits c v
  | array {items d : Descriptor} {t : Traits} {vs : List Value} (hshape : c.shape = .array)
      (htype : c.behind c.type = .ok (.array items t)) (hd : c.behind items = .ok d)
      (h : ∀ v ∈ vs, c.Conforms d v) : Fits c (.list vs)
  | object {fields : List Field} {additional : Additional Descriptor} {t : Traits} {entries : Entries}
      (hshape : c.shape = .object) (htype : c.behind c.type = .ok (.object fields additional t))
      (h : ∀ e ∈ entries, ∀ f, fields.find? (·.name.same e.1) = some f →
        ∃ d, c.behind f.type = .ok d ∧ c.Conforms d e.2) : Fits c (.map entries)

/-! ### Scalars -/

theorem readPrimitive_takes {p : Primitive} (h : c.readPrimitive text p = .ok v) : p.Takes v := by
  unfold readPrimitive at h
  split at h
  · split at h
    · exact ⟨_, (Except.ok.inj h).symm⟩
    · cases h
  · split at h
    · exact ⟨_, (Except.ok.inj h).symm⟩
    · cases h
  · split at h
    · next w hw =>
      obtain rfl := Except.ok.inj h
      obtain ⟨x, -, hx⟩ := Option.bind_eq_some_iff.1 hw
      split at hx
      · split at hx
        · exact .inl ⟨_, (Option.some.inj hx).symm⟩
        · exact .inr ⟨_, (Option.some.inj hx).symm⟩
      · exact .inr ⟨_, (Option.some.inj hx).symm⟩
    · cases h
  · split at h
    · exact ⟨_, (Except.ok.inj h).symm⟩
    · split at h
      · exact ⟨_, (Except.ok.inj h).symm⟩
      · cases h
  · split at h
    · exact (Except.ok.inj h).symm
    · cases h
  · next h₁ h₂ h₃ h₄ h₅ =>
    obtain rfl := Except.ok.inj h
    cases p <;> first | exact ⟨_, rfl⟩ | contradiction

theorem mem_of_findLiteral? {literals : List Value} (h : findLiteral? text literals = .ok (some v)) :
    v ∈ literals := by
  induction literals with
  | nil => cases h
  | cons w rest ih =>
    obtain ⟨s, -, h⟩ := bind_ok.1 h
    split at h
    · cases h
      exact List.mem_cons_self
    · exact List.mem_cons_of_mem _ (ih h)

/-- What is read as a type is a value of what is behind it. -/
def Reads (c : Codec) (read : Descriptor → Checked Value) (d : Descriptor) : Prop :=
  ∀ v, read d = .ok v → ∃ d', c.behind d = .ok d' ∧ c.Conforms d' v

mutual

theorem readWith_conforms {named : Descriptor → Checked Value} {scalar : Descriptor → Checked Bool}
    (hnamed : ∀ d, d.Definite → scalar d = .ok true → c.Reads named d) :
    (d : Descriptor) → d.Definite → NamedTypes.isScalarWith scalar d = .ok true →
      ∀ v, c.readWith text named d = .ok v → c.Conforms d v
  | .primitive p t, _, _ => by
    intro v h
    rw [readWith] at h
    split at h
    · next hnull =>
      cases h
      exact .null (Bool.and_eq_true_iff.1 hnull).1
    · exact .primitive (readPrimitive_takes h)
  | .enum base literals t, hd, _ => by
    intro v h
    rw [readWith] at h
    split at h
    · next hnull =>
      cases h
      exact .null (Bool.and_eq_true_iff.1 hnull).1
    · obtain ⟨found, hfound, h⟩ := bind_ok.1 h
      cases found with
      | none =>
        obtain ⟨_, -, h⟩ := bind_ok.1 h
        cases h
      | some w =>
        obtain rfl := pure_ok.1 h
        have hmem := mem_of_findLiteral? hfound
        exact .literal hmem fun heq => Descriptor.definite_enum.1 hd (heq ▸ hmem)
  | .union members t, hd, hscalar => by
    intro v h
    rw [readWith] at h
    split at h
    · next hnull =>
      cases h
      exact .null (Bool.and_eq_true_iff.1 hnull).1
    · obtain ⟨m, hm, d, hd, hv⟩ :=
        readFirst_conforms hnamed members (fun m hm => hd.part hm) hscalar v h
      exact .member hm hd hv
  | .reference .., _, hscalar | .array .., _, hscalar | .object .., _, hscalar
  | .intersection .., _, hscalar => by cases hscalar

theorem readFirst_conforms {named : Descriptor → Checked Value} {scalar : Descriptor → Checked Bool}
    (hnamed : ∀ d, d.Definite → scalar d = .ok true → c.Reads named d) :
    (members : List Descriptor) → (∀ m ∈ members, m.Definite) →
      NamedTypes.allScalarWith scalar members = .ok true →
      ∀ v, c.readFirst text named members = .ok v →
        ∃ m ∈ members, ∃ d, c.behind m = .ok d ∧ c.Conforms d v
  | [], _, _ => fun v h => by cases h
  | m :: rest, hdef, hscalar => by
    intro v h
    obtain ⟨hm, hrest⟩ := List.forall_mem_cons.1 hdef
    have hwith := readWith_conforms hnamed m hm
    rw [NamedTypes.allScalarWith_cons] at hscalar
    obtain ⟨b, hb, hscalar⟩ := bind_ok.1 hscalar
    cases b with
    | false => cases hscalar
    | true =>
      have hmember : c.Reads (c.readMember text named) m := by
        cases m with
        | reference name t => exact hnamed _ hm hb
        | _ => exact fun v hv => ⟨_, NamedTypes.behind_self (by simp), hwith hb v hv⟩
      rw [readFirst_cons] at h
      split at h
      · -- a member that refuses the text passes it on
        obtain ⟨m', hm', hv⟩ := readFirst_conforms hnamed rest hrest hscalar v h
        exact ⟨m', List.mem_cons_of_mem _ hm', hv⟩
      · exact ⟨m, List.mem_cons_self, hmember v h⟩

end

/-- No type that a codec comes to has null among the literals of an enumeration. -/
def Definite (c : Codec) : Prop := c.type.Definite ∧ ∀ e ∈ c.types, e.2.Definite

theorem readScalar_conforms (hc : c.Definite) (text : String) (fuel : Nat) (hd : d.Definite)
    (hscalar : c.types.isScalarWithin fuel d = .ok true) : c.Reads (c.readScalar text fuel) d := by
  induction fuel generalizing d with
  | zero => cases hscalar
  | succ fuel ih =>
    intro v hread
    obtain ⟨d', hbehind, hread⟩ := bind_ok.1 hread
    obtain ⟨e, he, hscalar⟩ := bind_ok.1 hscalar
    cases hbehind.symm.trans he
    have hd' : d'.Definite := NamedTypes.behind_holds hc.2 hd hbehind
    exact ⟨d', hbehind, readWith_conforms (fun d hd h => ih hd h) d' hd' hscalar v hread⟩

theorem read_conforms (hc : c.Definite) (hd : d.Definite) (hscalar : c.types.isScalar d = .ok true)
    (h : c.read raw d = .ok v) : ∃ d', c.behind d = .ok d' ∧ c.Conforms d' v := by
  unfold read at h
  split at h
  · exact readScalar_conforms hc _ _ hd hscalar v h
  · cases h

/-! ### Arrays and objects -/

theorem readItems_fits (hc : c.Definite) (hshape : c.shape = .array) {items : Descriptor} {t : Traits}
    (htype : c.behind c.type = .ok (.array items t)) (hscalar : c.types.isScalar items = .ok true)
    {parts : List String} (h : c.readItems parts = .ok v) : c.Fits v := by
  obtain ⟨_, heq, h⟩ := bind_ok.1 h
  cases htype.symm.trans heq
  obtain ⟨vs, hvs, rfl⟩ := bind_pure_ok.1 h
  have hitems : items.Definite :=
    (NamedTypes.behind_holds hc.2 hc.1 htype).part List.mem_cons_self
  obtain ⟨d, hd, -⟩ := bind_ok.1 hscalar
  refine .array hshape htype hd ?_
  apply Outcome.forall_mem_of_forall₂
  refine (mapM_ok.1 hvs).imp fun part w hw => ?_
  obtain ⟨d', hd', hw⟩ := read_conforms hc hitems hscalar hw
  cases hd.symm.trans hd'
  exact hw

theorem readEntry_ok {e : Entry} {p : Scalar × Value} (h : c.readEntry d e = .ok p) :
    ∃ key raw, p.1 = .str key ∧ c.read raw (member d (.str key)) = .ok p.2 := by
  obtain ⟨key, value⟩ := e
  cases value with
  | none => cases h
  | some raw =>
    obtain ⟨key, -, h⟩ := bind_ok.1 h
    obtain ⟨w, hw, rfl⟩ := bind_pure_ok.1 h
    exact ⟨key, raw, rfl, hw⟩

theorem readEntries_fits (hc : c.Definite) (hshape : c.shape = .object) {fields : List Field}
    {additional : Additional Descriptor} {t : Traits}
    (htype : c.behind c.type = .ok (.object fields additional t))
    (hscalar : ∀ f ∈ fields, c.types.isScalar f.type = .ok true) {entries : List Entry}
    (h : c.readEntries entries = .ok v) : c.Fits v := by
  obtain ⟨_, heq, h⟩ := bind_ok.1 h
  cases htype.symm.trans heq
  obtain ⟨pairs, hpairs, rfl⟩ := bind_pure_ok.1 h
  refine .object hshape htype fun e he f hf => ?_
  have hmem := List.mem_of_find?_eq_some hf
  have hdef : f.type.Definite := (NamedTypes.behind_holds hc.2 hc.1 htype).part
    (List.mem_append_left _ (List.mem_map_of_mem hmem))
  -- a key that occurs more than once has the value of one of its occurrences
  obtain ⟨p, hp, hsame, hvalue⟩ := Entries.mem_ofList he
  obtain ⟨key, raw, hkey, hread⟩ := Outcome.forall_mem_of_forall₂
    ((mapM_ok.1 hpairs).imp fun _ _ h => readEntry_ok h) p hp
  rw [hkey] at hsame
  rw [Scalar.same_str_iff.1 hsame] at hf
  have htype : member (.object fields additional t) (.str key) = f.type := by simp [member, hf]
  rw [htype] at hread
  exact hvalue ▸ read_conforms hc hdef (hscalar f hmem) hread

/-! ### Whole parameters -/

section
variable (hc : c.Definite) (htyped : c.Typed)
include hc htyped

theorem Route.fits {whole : Prop} {x : Checked Value} (h : c.Route whole x) (hx : x = .ok v)
    (hsome : v ≠ .null) : c.Fits v := by
  cases h with
  | absent => exact absurd (Except.ok.inj hx).symm hsome
  | refused => cases hx
  | scalar hshape raw =>
    cases htyped with
    | scalar _ hd hscalar =>
      obtain ⟨d, hd, hv⟩ := read_conforms hc hc.1 (NamedTypes.isScalar_of_behind hd hscalar) hx
      exact .scalar hshape hd hv
    | content heq | array heq | object heq | deep heq => cases heq.symm.trans hshape
  | items hshape parts =>
    cases htyped with
    | array _ hd hscalar => exact readItems_fits hc hshape hd hscalar hx
    | content heq | scalar heq | object heq | deep heq => cases heq.symm.trans hshape
  | entries hshape =>
    cases htyped with
    | object _ hd hscalar => exact readEntries_fits hc hshape hd hscalar hx
    | content heq | scalar heq | array heq | deep heq => cases heq.symm.trans hshape

theorem decodeExploded_fits (hshape : c.shape = .object) {pairs : List (String × String)}
    (h : c.decodeExploded pairs = .ok v) (hsome : v ≠ .null) : c.Fits v := by
  obtain ⟨names, -, h⟩ := bind_ok.1 h
  obtain ⟨declared, -, h⟩ := bind_ok.1 h
  split at h
  · exact absurd (pure_ok.1 h).symm hsome
  · exact Route.fits hc htyped (.entries hshape fun _ _ => False.elim) h hsome

theorem decodePairs_fits (hflat : c.IsFlat) {pairs : List (String × String)}
    (h : c.decodePairs pairs = .ok v) (hsome : v ≠ .null) : c.Fits v := by
  unfold decodePairs at h
  split at h
  · next hdeep => rcases hflat with heq | heq | heq <;> simp [heq] at hdeep
  · split at h
    · next hobject =>
      simp only [Bool.and_eq_true, beq_iff_eq] at hobject
      exact decodeExploded_fits hc htyped hobject.1.1 h hsome
    · split at h
      · exact absurd (Except.ok.inj h).symm hsome
      · exact (decodeValue_route hflat id _).fits hc htyped h hsome

theorem fits_of_decode (hflat : c.IsFlat) {raw : Option String} (h : c.decode raw = .ok v)
    (hsome : v ≠ .null) : c.Fits v := by
  unfold decode at h
  split at h
  · exact absurd (Except.ok.inj h).symm hsome
  · split at h
    · exact decodePairs_fits hc htyped hflat h hsome
    · exact decodePairs_fits hc htyped hflat h hsome
    · split at h
      · next hcontent => rcases hflat with heq | heq | heq <;> simp [heq] at hcontent
      · exact (decodeSegment_route hflat).fits hc htyped h hsome

end

/-- Whatever the text, what a parameter of a flat shape reads from it is a value of its type, unless the
parameter is absent. -/
theorem decode_fits {doc : Value} {policy : MergePolicy} {table : SchemaTable} {m : Mapper}
    (htable : SchemaTable.ofDocument doc policy = .ok table) (hm : Mapper.ofTable table = .ok m)
    {st st' : MapState} (hst : m.Reached st) {p : Parameter} {c : Codec}
    (hcodec : (p.codec m).run.run st = (.ok c, st'))
    (hshape : c.shape = .scalar ∨ c.shape = .array ∨ c.shape = .object) {raw : Option String}
    {v : Value} (hdecode : c.decode raw = .ok v) (hsome : v ≠ .null) : c.Fits v := by
  have hupholds := Mapper.upholds_definite htable hm
  obtain ⟨-, -, hc⟩ := hupholds.codec p st c st' (hupholds.reached hst) hcodec
  exact fits_of_decode hc (Parameter.typed_of_codec hcodec) hshape hdecode hsome

/-- A header that holds limits: a level, which may be null, and a size in numbers or by level. -/
def limits : Parameter :=
  { name := "limits", location := .header, style := .simple, explode := true, required := false,
    schema := some "#/components/schemas/Limits" }

def limitsDocument : Value :=
  .record [("components", .record [("schemas", .record [
    ("Level", .record [("enum", .list [.str "low", .null, .str "high"])]),
    ("Limits", .record [("type", .str "object"), ("properties", .record [
      ("level", .record [("$ref", .str "#/components/schemas/Level")]),
      ("size", .record [("oneOf", .list [.record [("type", .str "integer")],
        .record [("$ref", .str "#/components/schemas/Level")]])])])])])])]

theorem limits_decode_fits : ∃ table m st c st',
    SchemaTable.ofDocument limitsDocument .lastWins = .ok table ∧ Mapper.ofTable table = .ok m ∧
    m.Reached st ∧ (limits.codec m).run.run st = (.ok c, st') ∧
    ∃ v, c.decode (some "size=high,level=null,size=3,note=%41") = .ok v ∧
      v = .record [("size", .int 3), ("level", .null), ("note", .str "A")] ∧ c.Fits v := by
  have hok : ∃ table ∈ (SchemaTable.ofDocument limitsDocument .lastWins).toOption,
      ∃ m ∈ (Mapper.ofTable table).toOption,
        ∃ c ∈ ((limits.codec m).run.run
          ((m.mapType "#/components/schemas/Level").run.run {}).2).1.toOption,
          c.shape = .object ∧
          ∃ v ∈ (c.decode (some "size=high,level=null,size=3,note=%41")).toOption,
            v = .record [("size", .int 3), ("level", .null), ("note", .str "A")] := by
    decide +kernel
  obtain ⟨table, htable, hok⟩ := exists_ok.2 hok
  obtain ⟨m, hm, hok⟩ := exists_ok.2 hok
  obtain ⟨c, hc, hshape, hok⟩ := exists_ok.2 hok
  obtain ⟨v, hv, heq⟩ := exists_ok.2 hok
  have hst : m.Reached _ := .type .start "#/components/schemas/Level"
  obtain ⟨st', hrun⟩ : ∃ st', (limits.codec m).run.run
      ((m.mapType "#/components/schemas/Level").run.run {}).2 = (.ok c, st') :=
    ⟨_, Prod.ext hc rfl⟩
  have hsome : v ≠ .null := by simp [heq, Value.record]
  exact ⟨table, m, _, c, st', htable, hm, hst, hrun, v, hv, heq,
    decode_fits htable hm hst hrun (.inr (.inr hshape)) hv hsome⟩

end Codec
end OpenApi
