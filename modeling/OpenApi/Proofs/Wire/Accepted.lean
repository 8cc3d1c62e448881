import OpenApi.Proofs.Outcome
import OpenApi.Wire.Build

/-!
Which parameters have a wire format: the style of a parameter is one that its location allows, and
shapes that the style cannot tell apart from others are refused.
-/
namespace OpenApi

open Outcome (bind_ok pure_ok guard_ok ran_bind ran_pure ran_throw)

variable {types : NamedTypes} {d : Descriptor} {shape : Shape} {p : Parameter} {m : Mapper}
  {st st' : MapState} {c : Codec}

theorem Style.allows_cases {style : Style} {location : Location}
    (h : style.allows location = true) :
    (style = .simple ∧ (location = .path ∨ location = .header)) ∨
      (style = .simple ∧ location = .cookie) ∨ (style = .label ∧ location = .path) ∨
      (style = .matrix ∧ location = .path) ∨
      (style = .form ∧ (location = .query ∨ location = .cookie)) ∨
      ((style = .spaceDelimited ∨ style = .pipeDelimited ∨ style = .deepObject) ∧
        location = .query) := by
  revert h
  cases style <;> cases location <;> decide

namespace Codec

/-- What is certain of a codec of a flat shape that a parameter was given. -/
structure Accepted (c : Codec) : Prop where
  allows : c.parameter.style.allows c.parameter.location = true
  style_ne : c.parameter.style ≠ .deepObject
  shape_of_delimiter : c.parameter.style.arrayDelimiter?.isSome = true → c.shape = .array
  shape_of_cookie : c.parameter.location = .cookie → c.parameter.explode = true → c.shape = .scalar

variable {c : Codec}

/-- Styles with delimiters of their own are for arrays. -/
theorem Accepted.not_delimited (hc : c.Accepted) (hshape : c.shape ≠ .array) :
    ¬ (c.parameter.style = .spaceDelimited ∨ c.parameter.style = .pipeDelimited ∨
      c.parameter.style = .deepObject) := by
  rintro (hstyle | hstyle | hstyle)
  · exact hshape (hc.shape_of_delimiter (by simp [hstyle, Style.arrayDelimiter?]))
  · exact hshape (hc.shape_of_delimiter (by simp [hstyle, Style.arrayDelimiter?]))
  · exact hc.style_ne hstyle

theorem Accepted.location_ne_cookie (hc : c.Accepted) (hshape : c.shape ≠ .scalar)
    (hexplode : c.parameter.explode = true) : c.parameter.location ≠ .cookie :=
  fun hcookie => hshape (hc.shape_of_cookie hcookie hexplode)

end Codec

theorem NamedTypes.shape?_cases (h : types.shape? d = .ok (some shape)) :
    shape = .scalar ∨ shape = .array ∨ shape = .object := by
  obtain ⟨b, -, h⟩ := bind_ok.1 h
  cases b with
  | true =>
    cases h
    exact .inl rfl
  | false =>
    cases d <;> cases h
    · exact .inr (.inl rfl)
    · exact .inr (.inr rfl)

/-- In brackets a parameter has the shape of its style or none. -/
theorem Parameter.deep_of_shape (h : p.shape types d = .ok shape) (hstyle : p.style = .deepObject) :
    shape = .deepObject := by
  unfold Parameter.shape at h
  obtain ⟨d', -, h⟩ := bind_ok.1 h
  rw [if_pos (beq_iff_eq.2 hstyle)] at h
  split at h
  · obtain ⟨-, h⟩ := guard_ok h
    obtain ⟨_, -, h⟩ := bind_ok.1 h
    exact (pure_ok.1 h).symm
  · cases h

theorem Parameter.flat_of_shape (h : p.shape types d = .ok shape) (hstyle : p.style ≠ .deepObject) :
    (p.style.arrayDelimiter?.isSome = true → shape = .array) ∧
      (p.location = .cookie → p.explode = true → shape = .scalar) ∧
      ∃ d', types.behind d = .ok d' ∧ types.shape? d' = .ok (some shape) := by
  unfold Parameter.shape at h
  obtain ⟨d', hd', h⟩ := bind_ok.1 h
  rw [if_neg (mt beq_iff_eq.1 hstyle)] at h
  obtain ⟨found, hshape, h⟩ := bind_ok.1 h
  cases found with
  | none => cases h
  | some found =>
    obtain ⟨hdelimiter, h⟩ := guard_ok h
    have ⟨hcookie, hfound⟩ : (p.location == .cookie && p.explode && found != .scalar) = false ∧
        found = shape := by
      dsimp only at h
      split at h
      · next harray =>
        obtain ⟨_, -, h⟩ := bind_ok.1 h
        obtain ⟨-, h⟩ := guard_ok h
        have hfound : found = .array := by simpa using harray
        rw [if_neg (by simp [hfound])] at h
        obtain ⟨hcookie, h⟩ := guard_ok h
        exact ⟨hcookie, pure_ok.1 h⟩
      · split at h
        · obtain ⟨_, -, h⟩ := bind_ok.1 h
          obtain ⟨-, h⟩ := guard_ok h
          obtain ⟨-, h⟩ := guard_ok h
          obtain ⟨hcookie, h⟩ := guard_ok h
          exact ⟨hcookie, pure_ok.1 h⟩
        · obtain ⟨hcookie, h⟩ := guard_ok h
          exact ⟨hcookie, pure_ok.1 h⟩
    subst hfound
    refine ⟨fun hsome => ?_, fun hloc hexplode => ?_, d', hd', hshape⟩
    · simpa [hsome] using hdelimiter
    · simpa [hloc, hexplode] using hcookie

/-- A parameter is described by a media type, or has a style that its location allows and the shape that
goes with it. -/
theorem Parameter.codec_ok (h : (p.codec m).run.run st = (.ok c, st')) : c.parameter = p ∧
      (p.contentType.isSome = true ∧ c.shape = .content ∨
        p.contentType = none ∧ p.style.allows p.location = true ∧
          p.shape c.types c.type = .ok c.shape) := by
  unfold Parameter.codec at h
  split at h
  · next hcontent =>
    rw [hcontent]
    dsimp only at h
    split at h <;>
    · obtain ⟨type, t, -, h⟩ := ran_bind.1 h
      obtain ⟨types, u, -, h⟩ := ran_bind.1 h
      obtain ⟨rfl, -⟩ := ran_pure.1 h
      exact ⟨rfl, .inl ⟨rfl, rfl⟩⟩
  · exact (ran_throw.1 h).elim
  · next hcontent _ =>
    split at h
    · obtain ⟨_, _, h, -⟩ := ran_bind.1 h
      exact (ran_throw.1 h).elim
    · next hallows =>
      obtain ⟨type, t, -, h⟩ := ran_bind.1 h
      obtain ⟨types, u, -, h⟩ := ran_bind.1 h
      obtain ⟨shape, u', hshape, h⟩ := ran_bind.1 h
      obtain ⟨hshape, -⟩ := Outcome.ran_lift.1 hshape
      obtain ⟨rfl, -⟩ := ran_pure.1 h
      exact ⟨rfl, .inr ⟨hcontent, by simpa using hallows, hshape⟩⟩

/-- A parameter that is not described by a media type has a style that its location allows. -/
theorem Parameter.allows_of_codec (h : (p.codec m).run.run st = (.ok c, st'))
    (hcontent : c.shape ≠ .content) :
    c.parameter.style.allows c.parameter.location = true := by
  obtain ⟨rfl, ⟨-, hshape⟩ | ⟨-, hallows, -⟩⟩ := Parameter.codec_ok h
  · exact absurd hshape hcontent
  · exact hallows

theorem Parameter.accepted_of_codec (h : (p.codec m).run.run st = (.ok c, st'))
    (hcontent : c.shape ≠ .content) (hdeep : c.shape ≠ .deepObject) : c.Accepted := by
  obtain ⟨rfl, ⟨-, hshape⟩ | ⟨-, hallows, hshape⟩⟩ := Parameter.codec_ok h
  · exact absurd hshape hcontent
  · have hstyle := fun heq => hdeep (Parameter.deep_of_shape hshape heq)
    obtain ⟨hdelimiter, hcookie, -⟩ := Parameter.flat_of_shape hshape hstyle
    exact ⟨hallows, hstyle, hdelimiter, hcookie⟩

/-! ### Types of parameters -/

theorem Parameter.checkFields_ok {fields : List Field} (h : p.checkFields types fields = .ok ()) :
    ∀ f ∈ fields, types.isScalar f.type = .ok true := by
  induction fields with
  | nil => exact List.forall_mem_nil _
  | cons f rest ih =>
    obtain ⟨b, hb, h⟩ := bind_ok.1 h
    cases b with
    | false =>
      obtain ⟨_, -, h⟩ := bind_ok.1 h
      cases h
    | true => exact List.forall_mem_cons.2 ⟨hb, ih h⟩

namespace Codec

/-- What was checked of the type of a parameter when it was given its shape. -/
inductive Typed (c : Codec) : Prop
  | content (hshape : c.shape = .content)
  | scalar {d : Descriptor} (hshape : c.shape = .scalar) (hd : c.behind c.type = .ok d)
      (h : c.types.isScalar d = .ok true)
  | array {items : Descriptor} {t : Traits} (hshape : c.shape = .array)
      (hd : c.behind c.type = .ok (.array items t)) (h : c.types.isScalar items = .ok true)
  | object {fields : List Field} {additional : Additional Descriptor} {t : Traits}
      (hshape : c.shape = .object) (hd : c.behind c.type = .ok (.object fields additional t))
      (h : ∀ f ∈ fields, c.types.isScalar f.type = .ok true)
  | deep {fields : List Field} {additional : Additional Descriptor} {t : Traits} {pointer : String}
      (hshape : c.shape = .deepObject) (hlocation : c.parameter.location = .query)
      (hd : c.behind c.type = .ok (.object fields additional t))
      (h : c.types.checkDeep pointer (.object fields additional t) = .ok ())

theorem Typed.exists_behind {c : Codec} (h : c.Typed) (hshape : c.shape ≠ .content) :
    ∃ d, c.behind c.type = .ok d := by
  cases h with
  | content heq => exact absurd heq hshape
  | scalar _ hd => exact ⟨_, hd⟩
  | array _ hd => exact ⟨_, hd⟩
  | object _ hd => exact ⟨_, hd⟩
  | deep _ _ hd => exact ⟨_, hd⟩

theorem Typed.location_of_deep {c : Codec} (h : c.Typed) (hshape : c.shape = .deepObject) :
    c.parameter.location = .query := by
  cases h with
  | deep _ hlocation => exact hlocation
  | content heq | scalar heq | array heq | object heq => cases heq.symm.trans hshape

theorem typed_of_shape {c : Codec} (hallows : c.parameter.style.allows c.parameter.location = true)
    (h : c.parameter.shape c.types c.type = .ok c.shape) : c.Typed := by
  unfold Parameter.shape at h
  obtain ⟨d, hd, h⟩ := bind_ok.1 h
  by_cases hstyle : (c.parameter.style == .deepObject) = true
  · rw [if_pos hstyle] at h
    split at h
    · obtain ⟨-, h⟩ := guard_ok h
      obtain ⟨_, hcheck, h⟩ := bind_ok.1 h
      have hlocation : c.parameter.location = .query := by
        have hcases := Style.allows_cases hallows
        simpa [beq_iff_eq.1 hstyle] using hcases
      exact .deep (pure_ok.1 h).symm hlocation hd hcheck
    · cases h
  · rw [if_neg hstyle] at h
    obtain ⟨found, hfound, h⟩ := bind_ok.1 h
    obtain ⟨scalar, hscalar, hfound⟩ := bind_ok.1 hfound
    cases scalar with
    | true =>
      obtain rfl := pure_ok.1 hfound
      obtain ⟨-, h⟩ := guard_ok h
      rw [if_neg (by decide), if_neg (by decide)] at h
      obtain ⟨-, h⟩ := guard_ok h
      exact .scalar (pure_ok.1 h).symm hd hscalar
    | false =>
      obtain rfl := pure_ok.1 hfound
      cases d with
      | array items t =>
        obtain ⟨-, h⟩ := guard_ok h
        rw [if_pos (by decide)] at h
        obtain ⟨b, hitems, h⟩ := bind_ok.1 h
        obtain ⟨hb, h⟩ := guard_ok h
        rw [if_neg (by decide)] at h
        obtain ⟨-, h⟩ := guard_ok h
        rw [Bool.not_eq_false'] at hb
        exact .array (pure_ok.1 h).symm hd (hb ▸ hitems)
      | object fields additional t =>
        obtain ⟨-, h⟩ := guard_ok h
        rw [if_neg (by decide), if_pos (by decide)] at h
        obtain ⟨_, hfields, h⟩ := bind_ok.1 h
        obtain ⟨-, h⟩ := guard_ok h
        obtain ⟨-, h⟩ := guard_ok h
        obtain ⟨-, h⟩ := guard_ok h
        exact .object (pure_ok.1 h).symm hd (Parameter.checkFields_ok hfields)
      | _ => cases h

end Codec

theorem Parameter.typed_of_codec (h : (p.codec m).run.run st = (.ok c, st')) : c.Typed := by
  obtain ⟨rfl, ⟨-, hshape⟩ | ⟨-, hallows, hshape⟩⟩ := Parameter.codec_ok h
  · exact .content hshape
  · exact Codec.typed_of_shape hallows hshape

end OpenApi
