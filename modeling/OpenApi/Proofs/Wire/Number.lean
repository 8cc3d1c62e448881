import OpenApi.Proofs.Double
import OpenApi.Proofs.Wire.RoundTrip

/-!
Integers as parameters of type `number`. Their texts are read as floating point numbers, and turned back
into integers after that, so an integer comes back only if it is a floating point number itself.
-/
namespace OpenApi.Codec

variable {c : Codec} {t : Traits} {text : String}

/-- An integer is read as the nearest one among the floating point numbers, which may be infinite. -/
theorem readNumber?_intText (n : Int) : readNumber? (intText n) =
    some (if Double.rounded n.natAbs < Double.bound then
      .int (if n < 0 then -(Double.rounded n.natAbs : Int) else Double.rounded n.natAbs)
    else .float (.ofDecimal (decide (n < 0)) n.natAbs 0)) := by
  unfold readNumber?
  rw [readDouble?_intText]
  dsimp only [Option.bind_eq_bind, Option.bind_some]
  rw [Double.ofDecimal_integer, isWholeNumeral_intText]
  split_ifs <;> simp_all

/-- What the text of an integer holds, unless the integer has too many digits for one. -/
theorem wireText_int_ok {n : Int} (h : c.wireText (.int n) = .ok text) :
    (Nat.toDigits 10 n.natAbs).length ≤ Text.maxDigits ∧
      text = Percent.encode (intText n) (c.parameter.style == .label) := by
  obtain ⟨inner, hinner, rfl⟩ := wireText_ok h
  have hint := written_ok (show written (intText? n) = .ok inner from hinner)
  unfold intText? at hint
  split at hint
  · next hmax => exact ⟨hmax, by rw [Option.some.inj hint]⟩
  · cases hint

theorem encode_int (hshape : c.shape = .scalar) (n : Int) :
    c.encode (.int n) = c.encodeScalar (.int n) := by
  rw [encode, hshape]
  rintro ⟨⟩

/-- A scalar that is an integer is read from the text of the integer. -/
theorem decode_encode_int {n : Int} {w : String} (hc : c.Accepted) (hshape : c.shape = .scalar)
    (hw : c.encode (.int n) = .ok w) :
    c.decode (some w) = c.read (Percent.encode (intText n) (c.parameter.style == .label)) c.type := by
  rw [encode_int hshape] at hw
  obtain ⟨text, htext, hdecode⟩ := decode_encodeScalar_eq hc hshape hw
  rw [hdecode, (wireText_int_ok htext).2]

theorem exists_encode_int {n : Int} (hshape : c.shape = .scalar)
    (h : (Nat.toDigits 10 n.natAbs).length ≤ Text.maxDigits) : ∃ w, c.encode (.int n) = .ok w := by
  have htext : c.wireText (.int n) = .ok (Percent.encode (intText n) (c.parameter.style == .label)) := by
    rw [wireText, scalarText, writtenInt, intText?, if_pos h]
    rfl
  rw [encode_int hshape]
  exact ⟨_, Outcome.bind_of_ok htext _⟩

theorem read_number (hd : c.behind c.type = .ok (.primitive .number t)) (hnull : t.nullable = false)
    (n : Int) (dot : Bool) : c.read (Percent.encode (intText n) dot) c.type =
      .ok (if Double.rounded n.natAbs < Double.bound then
        .int (if n < 0 then -(Double.rounded n.natAbs : Int) else Double.rounded n.natAbs)
      else .float (.ofDecimal (decide (n < 0)) n.natAbs 0)) := by
  rw [read_encode hd, readWith, hnull, Bool.false_and, if_neg Bool.false_ne_true, readPrimitive,
    readNumber?_intText]

theorem read_number_iff (hd : c.behind c.type = .ok (.primitive .number t))
    (hnull : t.nullable = false) (n : Int) (dot : Bool) :
    c.read (Percent.encode (intText n) dot) c.type = .ok (.int n) ↔ Double.Exact n.natAbs := by
  rw [read_number hd hnull, Double.exact_iff, Except.ok.injEq]
  by_cases hbound : Double.rounded n.natAbs < Double.bound
  · have hsign : (if n < 0 then -(Double.rounded n.natAbs : Int) else Double.rounded n.natAbs) = n ↔
        Double.rounded n.natAbs = n.natAbs := by
      split_ifs <;> omega
    rw [if_pos hbound, Value.scalar.injEq, Scalar.int.injEq, hsign]
    exact ⟨fun h => ⟨h, h ▸ hbound⟩, And.left⟩
  · rw [if_neg hbound]
    exact ⟨nofun, fun ⟨h, hlt⟩ => absurd (h.trans_lt hlt) hbound⟩

/-- An integer passes a parameter of type `number` exactly if it is a floating point number. -/
theorem decode_encode_number_iff {p : Parameter} {m : Mapper} {st st' : MapState}
    (hcodec : (p.codec m).run.run st = (.ok c, st')) (hshape : c.shape = .scalar)
    (hd : c.behind c.type = .ok (.primitive .number t)) (hnull : t.nullable = false) (n : Int) :
    (∃ w, c.encode (.int n) = .ok w ∧ c.decode (some w) = .ok (.int n)) ↔ Double.Exact n.natAbs := by
  have hc : c.Accepted := Parameter.accepted_of_codec hcodec (by simp [hshape]) (by simp [hshape])
  constructor
  · rintro ⟨w, hw, hdecode⟩
    rw [decode_encode_int hc hshape hw] at hdecode
    exact (read_number_iff hd hnull n _).1 hdecode
  · intro h
    have hdigits : (Nat.toDigits 10 n.natAbs).length ≤ Text.maxDigits := by
      rw [Nat.length_toDigits_le_iff (by decide) (by decide)]
      exact h.lt_bound.trans_le (Double.bound_le_ten_pow (by decide))
    obtain ⟨w, hw⟩ := exists_encode_int hshape hdigits
    refine ⟨w, hw, ?_⟩
    rw [decode_encode_int hc hshape hw]
    exact (read_number_iff hd hnull n _).2 h

/-- A query parameter that is a number. -/
def amount : Parameter :=
  { name := "q", location := .query, style := .form, explode := true, required := false,
    schema := some "#/q" }

def amountMapper : Mapper :=
  { table := { nodes := [("#/q", { id := "#/q", kind := .primitive, type := .str "number" })] }
    recursive := []
    names := [] }

def amountCodec : Codec :=
  { parameter := amount
    shape := .scalar
    type := .primitive .number { source := some "#/q" }
    types := [] }

theorem amount_decode_encode :
    (∃ st, (amount.codec amountMapper).run.run {} = (.ok amountCodec, st)) ∧
    Double.Exact 9007199254740994 ∧
    ∃ w, amountCodec.encode (.int (-9007199254740994)) = .ok w ∧
      amountCodec.decode (some w) = .ok (.int (-9007199254740994)) := by
  have hcodec : (amount.codec amountMapper).run.run {} = (.ok amountCodec, _) := rfl
  have hexact : Double.Exact 9007199254740994 := ⟨2 ^ 52 + 1, 1, by decide, by decide, by decide⟩
  exact ⟨⟨_, hcodec⟩, hexact, (decode_encode_number_iff hcodec rfl rfl rfl (-9007199254740994)).2 hexact⟩

/-- The first integer that needs 54 bits comes back as its neighbour. -/
theorem amount_rounded :
    (∃ st, (amount.codec amountMapper).run.run {} = (.ok amountCodec, st)) ∧
    ∃ w, amountCodec.encode (.int 9007199254740993) = .ok w ∧
      amountCodec.decode (some w) = .ok (.int 9007199254740992) := by
  have hcodec : (amount.codec amountMapper).run.run {} = (.ok amountCodec, _) := rfl
  have hc : amountCodec.Accepted := Parameter.accepted_of_codec hcodec nofun nofun
  have hrounded : Double.rounded 9007199254740993 = 9007199254740992 := by decide +kernel
  have hbound : 9007199254740992 < Double.bound := Double.Exact.lt_bound ⟨1, 53, rfl, by decide, by decide⟩
  obtain ⟨w, hw⟩ : ∃ w, amountCodec.encode (.int 9007199254740993) = .ok w :=
    exists_encode_int rfl (by decide +kernel)
  refine ⟨⟨_, hcodec⟩, w, hw, ?_⟩
  have habs : (9007199254740993 : Int).natAbs = 9007199254740993 := rfl
  rw [decode_encode_int hc rfl hw, read_number rfl rfl, habs, hrounded, if_pos hbound]
  rfl

end OpenApi.Codec
