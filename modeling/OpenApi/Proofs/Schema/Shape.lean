import OpenApi.Proofs.Schema.Fragment

/-!
What the keywords of a schema make of it: a reference, a composition, a union or a plain schema. A plain
schema of one type has a fragment that can be read off its keywords, without entering its parts.
-/
namespace OpenApi.Resolve

/-- What building makes of a schema. -/
inductive Shape where
  | reference
  | composition
  | union
  | plain
deriving DecidableEq

def shape (raw : Entries) : Shape :=
  if raw.has "$ref" then .reference
  else if raw.has "allOf" then .composition
  else if raw.has "oneOf" || raw.has "anyOf" then .union
  else .plain

/-- Does a schema state several types besides null? -/
def severalTypes (raw : Entries) : Bool :=
  match found raw "type" with
  | .list types => decide (1 < (types.filter fun t => !t.same (.str "null")).length)
  | _ => false

/-- The type of a schema that does not state several. -/
def soleType (raw : Entries) : Value :=
  match found raw "type" with
  | .list types =>
    match types.filter fun t => !t.same (.str "null") with
    | [] => .str "null"
    | type :: _ => type
  | type => type

/-- Do keywords beside a composition count as a fragment of it? -/
def isStructural (raw : Entries) : Bool := structuralKeywords.any (raw.has ·)

/-- What all kinds of schema have in common, at no place. -/
def commonFragment (raw : Entries) (kind : NodeKind) : Fragment :=
  (common ⟨.null, .lastWins, []⟩ raw "" kind).fragment

/-- The names of the properties that a schema lists, each with whether it is required. -/
def listedProperties (raw : Entries) (required : List String) : List (Scalar × Bool) :=
  match (found raw "properties").orEmpty with
  | .map entries => entries.map fun (name, _) => (name, required.any fun r => name.same (.str r))
  | _ => []

/-- Does a schema say something about further properties? -/
def specifiesAdditional (raw : Entries) : Bool :=
  match found raw "additionalProperties" with
  | .map _ | .bool _ => true
  | _ => false

/-- The fragment of a schema of one type. -/
def singleFragment (raw : Entries) (type : Value) : Fragment :=
  let values := (enumValues raw "").toOption.getD []
  let required := (required raw "").toOption.getD []
  let enum := values.filter fun v => !v.isNull
  let base := commonFragment raw .primitive
  let base := { base with
    type, required, enum
    nullable := base.nullable || values.any Value.isNull
    format := found raw "format"
    constraints := .ofEntries raw }
  match enum with
  | first :: _ =>
    { base with kind := .enum, type := if type.isNull then .str (jsonTypeOf first) else type }
  | [] =>
    if type.same (.str "object") || raw.has "properties" || raw.has "additionalProperties" then
      { base with
        kind := .object
        type := .str "object"
        properties := listedProperties raw required
        additional := specifiesAdditional raw }
    else if type.same (.str "array") || raw.has "items" then
      { base with kind := .array, type := .str "array", items := !(found raw "items").isNull }
    else base

/-- The fragment of a plain schema. -/
def plainFragment (raw : Entries) : Fragment :=
  if severalTypes raw then commonFragment raw .union else singleFragment raw (soleType raw)

variable {raw : Entries}

theorem shape_eq_plain_iff : shape raw = .plain ↔ raw.has "$ref" = false ∧ raw.has "allOf" = false ∧
    raw.has "oneOf" = false ∧ raw.has "anyOf" = false := by
  unfold shape
  cases raw.has "$ref" <;> cases raw.has "allOf" <;> cases raw.has "oneOf" <;>
    cases raw.has "anyOf" <;> simp

theorem shape_eq_composition_iff :
    shape raw = .composition ↔ raw.has "$ref" = false ∧ raw.has "allOf" = true := by
  unfold shape
  cases raw.has "$ref" <;> cases raw.has "allOf" <;> cases raw.has "oneOf" <;>
    cases raw.has "anyOf" <;> simp

/-! ### What a plain schema spells out -/

theorem default_plainFragment (raw : Entries) : (plainFragment raw).default = raw.get? "default" := by
  unfold plainFragment singleFragment
  split
  · rfl
  · dsimp only
    split
    · rfl
    · split_ifs <;> rfl

theorem declared_plainFragment (raw : Entries) : (plainFragment raw).declared = declared raw := by
  unfold plainFragment singleFragment
  split
  · rfl
  · dsimp only
    split
    · rfl
    · split_ifs <;> rfl

/-- A type may also say that null is allowed. -/
theorem contains_declared {a : Attribute} (h : a ≠ .nullable ∨ found raw "type" = .null) :
    (declared raw).contains a = a.keywords.any (raw.has ·) := by
  have hall : a ∈ Attribute.all := by cases a <;> decide
  rw [Bool.eq_iff_iff, List.contains_iff_mem, declared, List.mem_filter, and_iff_right hall]
  rcases h with hne | htype
  · rw [beq_false_of_ne hne, Bool.false_and, Bool.or_false]
  · rw [htype]
    dsimp only
    rw [Bool.and_false, Bool.or_false]

theorem declares_default_plainFragment (h : (plainFragment raw).default.isSome = true) :
    (plainFragment raw).declares .default = true := by
  rw [default_plainFragment] at h
  rw [Fragment.declares, declared_plainFragment, contains_declared (.inl (by decide))]
  simp [Attribute.keywords, Entries.has, h]

/-! ### Keywords that make no fragment -/

section
variable (h : isStructural raw = false)
include h

theorem get?_of_not_structural {key : String} (hkey : key ∈ structuralKeywords) :
    raw.get? key = none := by
  have hhas : ¬ raw.has key = true := List.any_eq_false.1 h key hkey
  simpa [Entries.has] using hhas

theorem found_of_not_structural {key : String} (hkey : key ∈ structuralKeywords) :
    found raw key = .null := by
  unfold found
  rw [get?_of_not_structural h hkey]
  rfl

theorem ofEntries_of_not_structural : Constraints.ofEntries raw = [] := by
  have hlimit : ∀ l : Limit, raw.get? l.keyword = none := by
    intro l
    apply get?_of_not_structural h
    cases l <;> decide
  unfold Constraints.ofEntries
  simp only [hlimit, Option.getD_none]
  rfl

/-- Such keywords say no more than what all kinds of schema have in common. -/
theorem plainFragment_of_not_structural :
    plainFragment raw = commonFragment raw .primitive := by
  have hget : ∀ key ∈ structuralKeywords, raw.get? key = none :=
    fun key hkey => get?_of_not_structural h hkey
  have hfound := found_of_not_structural h (by decide : "type" ∈ structuralKeywords)
  have hone : severalTypes raw = false := by simp [severalTypes, hfound]
  have htype : soleType raw = .null := by simp [soleType, hfound]
  have hvalues : enumValues raw "" = .ok [] := by
    unfold enumValues
    rw [hget "const" (by decide), hget "enum" (by decide)]
  have hrequired : required raw "" = .ok [] := by
    unfold required
    rw [hget "required" (by decide)]
    rfl
  have hhas : ∀ key ∈ structuralKeywords, raw.has key = false := by
    intro key hkey
    rw [Entries.has, hget key hkey]
    rfl
  unfold plainFragment singleFragment
  rw [hone, htype, hvalues, hrequired, hhas "properties" (by decide),
    hhas "additionalProperties" (by decide), hhas "items" (by decide),
    found_of_not_structural h (by decide : "format" ∈ structuralKeywords),
    ofEntries_of_not_structural h]
  have hobject : Value.null.same (.str "object") = false := rfl
  have harray : Value.null.same (.str "array") = false := rfl
  simp [commonFragment, common, Node.fragment, Node.outline, Except.toOption, hobject, harray]

theorem declares_plainFragment_of_not_structural (a : Attribute) :
    (plainFragment raw).declares a = a.keywords.any (raw.has ·) := by
  have hitems : (plainFragment raw).items = false := by
    rw [plainFragment_of_not_structural h]
    rfl
  rw [Fragment.declares, hitems, Bool.and_false, Bool.or_false, declared_plainFragment]
  exact contains_declared (.inr (found_of_not_structural h (by decide)))

theorem bare_plainFragment : (plainFragment raw).Bare := by
  constructor
  case declares =>
    have hkeywords : ∀ a ∈ [Attribute.type, .format, .enum, .items, .additional],
        ∀ key ∈ a.keywords, key ∈ structuralKeywords := by decide
    intro a ha
    rw [declares_plainFragment_of_not_structural h, List.any_eq_false]
    intro key hkey
    simp [Entries.has, get?_of_not_structural h (hkeywords a ha key hkey)]
  all_goals rw [plainFragment_of_not_structural h]; rfl

theorem explicit_plainFragment : (plainFragment raw).Explicit := by
  -- an attribute that is not spelled out has none of its keywords
  have hfound : ∀ a, (plainFragment raw).declares a = false → ∀ key ∈ a.keywords,
      found raw key = .null := by
    intro a ha key hkey
    rw [declares_plainFragment_of_not_structural h, List.any_eq_false] at ha
    have hnone : raw.get? key = none := by simpa [Entries.has] using ha key hkey
    rw [found, hnone]
    rfl
  have htype := found_of_not_structural h (by decide : "type" ∈ structuralKeywords)
  rw [plainFragment_of_not_structural h] at hfound ⊢
  constructor
  case nullable =>
    intro hn
    have hnullable := hfound _ hn "nullable" (by decide)
    have hother := hfound _ hn "x-nullable" (by decide)
    simp [commonFragment, common, Node.fragment, Node.outline, htype, hnullable, hother, Value.truthy]
  case deprecated =>
    intro hn
    have hdeprecated := hfound _ hn "deprecated" (by decide)
    simp [commonFragment, common, Node.fragment, Node.outline, hdeprecated, Value.truthy]
  case readOnly =>
    intro hn
    have hreadOnly := hfound _ hn "readOnly" (by decide)
    simp [commonFragment, common, Node.fragment, Node.outline, hreadOnly, Value.truthy]
  case writeOnly =>
    intro hn
    have hwriteOnly := hfound _ hn "writeOnly" (by decide)
    simp [commonFragment, common, Node.fragment, Node.outline, hwriteOnly, Value.truthy]
  case sample => exact fun hn => hfound _ hn "example" (by decide)

end

end OpenApi.Resolve
