import Mathlib.Algebra.Group.Int.Defs
import OpenApi.Proofs.Json.RoundTrip
import OpenApi.Proofs.Wire.RoundTrip

/-!
Parameters that are described by a media type travel as JSON: bare in a header, percent-encoded
elsewhere, and under their name in a query string or cookie header. What they carry is read as it was
written in all of these places.
-/
namespace OpenApi

theorem Parameter.codec_content {p : Parameter} {m : Mapper} {st st' : MapState} {c : Codec}
    (h : (p.codec m).run.run st = (.ok c, st')) (hcontent : p.contentType.isSome = true) :
    c.shape = .content := by
  obtain ⟨-, ⟨-, hshape⟩ | ⟨hnone, -⟩⟩ := Parameter.codec_ok h
  · exact hshape
  · simp [hnone] at hcontent

namespace Codec

variable {c : Codec} {v : Value}

theorem encode_content (hshape : c.shape = .content) (hnull : v ≠ .null) :
    c.encode v = c.encodeContent v := by
  unfold encode
  split
  · exact absurd rfl hnull
  · rw [hshape]

/-- The JSON text of a value comes through, wherever it is put. -/
theorem decode_encodeContent {text : String} (hshape : c.shape = .content)
    (hprint : Json.print? v = some text) :
    ∃ w, c.encodeContent v = .ok w ∧ c.decode (some w) = c.decodeJson text := by
  have hdecode : percentDecode (Percent.encode text false) = .ok text := by
    rw [percentDecode, Percent.decode?_encode]
  -- a pair of its own in a query string or cookie header
  have hpair : (c.parameter.location = .query ∨ c.parameter.location = .cookie) →
      c.decode (some (pair c.wireName (Percent.encode text false))) = c.decodeJson text := by
    intro hloc
    rw [decode_pair hloc (by simp [hshape]) (by simp [hshape]) (isPairText_encode text false),
      decodeValue, hshape]
    dsimp only
    rw [hdecode]
    rfl
  unfold encodeContent
  rw [hprint]
  cases hloc : c.parameter.location with
  | header => exact ⟨text, rfl, by simp [decode, hloc, hshape]⟩
  | path =>
    refine ⟨_, rfl, ?_⟩
    rw [decode, hloc]
    dsimp only
    rw [if_pos (by simp [hshape]), if_neg (by decide), hdecode]
    rfl
  | query => exact ⟨_, rfl, hpair (.inl hloc)⟩
  | cookie => exact ⟨_, rfl, hpair (.inr hloc)⟩

/-- JSON data comes back from the wire just when no integer in it has too many digits to be written. -/
theorem decode_encode_content_iff {p : Parameter} {m : Mapper} {st st' : MapState}
    (hcodec : (p.codec m).run.run st = (.ok c, st')) (hcontent : p.contentType.isSome = true)
    (hv : Json.Data v) (hnull : v ≠ .null) :
    (∃ w, c.encode v = .ok w ∧ c.decode (some w) = .ok v) ↔ Json.Bounded v := by
  have hshape := Parameter.codec_content hcodec hcontent
  rw [encode_content hshape hnull]
  constructor
  · rintro ⟨w, hw, -⟩
    unfold encodeContent at hw
    split at hw
    · cases hw
    · next text hprint => exact Json.bounded_of_print hprint
  · intro hbounded
    obtain ⟨text, hprint, hparse⟩ := hv.parse_print hbounded
    obtain ⟨w, hw, hdecode⟩ := decode_encodeContent hshape hprint
    exact ⟨w, hw, by rw [hdecode, decodeJson, hparse]⟩

/-- A cookie whose name holds what parts cookies, described by a media type. -/
def basket : Parameter :=
  { name := "a;b=c", location := .cookie, style := .form, explode := true, required := false,
    contentType := some (.str "application/json") }

def basketCodec : Codec := { parameter := basket, shape := .content, type := .any, types := [] }

theorem basket_decode_encode_content :
    ∃ w, basketCodec.encode
        (.map [(.str "\"\\\n;", .list [.int (-7), .bool true, .map [], .str "\x01 é"])]) = .ok w ∧
      basketCodec.decode (some w) =
        .ok (.map [(.str "\"\\\n;", .list [.int (-7), .bool true, .map [], .str "\x01 é"])]) := by
  have hcodec : (basket.codec { table := {}, recursive := [], names := [] }).run.run {} =
      (.ok basketCodec, _) := rfl
  have hdata : Json.Data
      (.map [(.str "\"\\\n;", .list [.int (-7), .bool true, .map [], .str "\x01 é"])]) := by
    refine .map (by simp) (by simp) ?_
    rw [List.forall_mem_singleton]
    refine .list ?_
    simp only [List.forall_mem_cons]
    exact ⟨.int _, .bool _, .map nofun .nil nofun, .str _, nofun⟩
  refine (decode_encode_content_iff hcodec rfl hdata nofun).2 ?_
  intro n hn
  have hseven : n = -7 := by simpa [Value.subvalues, Value.itemSubvalues, Value.entrySubvalues] using hn
  rw [hseven]
  exact Nat.lt_of_lt_of_le (show 7 < 10 ^ 1 by decide) (Nat.pow_le_pow_right (by decide) (by decide))

/-- A number of one digit too many is neither written nor read. -/
theorem basket_large_integer :
    Json.Data (.int (10 ^ Text.maxDigits)) ∧
    basketCodec.encode (.int (10 ^ Text.maxDigits)) = .error .wrongKind ∧
    basketCodec.decodeJson (Nat.repr (10 ^ Text.maxDigits)) = .error .wrongKind := by
  have habs : (10 ^ Text.maxDigits : Int).natAbs = 10 ^ Text.maxDigits := by
    rw [Int.natAbs_pow, show Int.natAbs 10 = 10 from rfl]
  have hprint : Json.print? (.int (10 ^ Text.maxDigits)) = none := by
    cases hprint : Json.print? (.int (10 ^ Text.maxDigits)) with
    | none => rfl
    | some text =>
      have hlt := Json.bounded_of_print hprint _ (Value.mem_subvalues_self _)
      rw [habs] at hlt
      exact absurd hlt (Nat.lt_irrefl _)
  refine ⟨.int _, ?_, ?_⟩
  · have hencode : basketCodec.encode (.int (10 ^ Text.maxDigits)) = basketCodec.encodeContent _ :=
      encode_content rfl (by simp)
    rw [hencode, encodeContent, hprint]
  · obtain ⟨e, hparse, he⟩ := Json.parse_repr_of_le (Nat.le_refl (10 ^ Text.maxDigits))
    rw [decodeJson, hparse]
    exact if_pos he

end Codec
end OpenApi
