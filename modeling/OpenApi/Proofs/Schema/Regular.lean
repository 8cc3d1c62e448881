import OpenApi.Proofs.Schema.Gathering
import OpenApi.Proofs.Schema.Layout

/-!
Nodes that are neither references nor composed. They list everything once and set nothing that they do not
spell out, with two exceptions: a plain schema may only imply that null is allowed, or of which kind it is.
What has been merged implies neither.
-/
namespace OpenApi

/-- Limits, properties and required names are listed once, and what is not spelled out is not set. -/
structure Node.Regular (n : Node) : Prop where
  constraints : n.constraints.Normal
  required : n.required.Nodup
  properties : n.properties.Pairwise fun a b => a.name.same b.name = false
  flag : ∀ q ∈ n.properties, q.required = n.required.any fun r => q.name.same (.str r)
  default : n.default.isSome = true → Merge.declares .default n = true
  format : Merge.declares .format n = false → n.format = .null
  enum : Merge.declares .enum n = false → n.enum = []
  items : Merge.declares .items n = false → n.items = none
  additional : Merge.declares .additional n = false → n.additional = .unspecified

/-- The kind that is seen from what a fragment spells out. -/
def Fragment.keptKind (f : Fragment) : NodeKind :=
  let type := if f.declares .type then f.type else .null
  if !f.enum.isEmpty then .enum
  else if type.same (.str "object") || !f.properties.isEmpty || f.additional then .object
  else if type.same (.str "array") || f.items then .array
  else .primitive

/-- That null is allowed and the kind of a node are seen from what it spells out. -/
structure Node.Kept (n : Node) : Prop where
  nullable : Merge.declares .nullable n = false → n.nullable = false
  kind : n.fragment.keptKind = n.kind

theorem Merge.keptKind_fragment (f : Node) : f.fragment.keptKind =
    kind (if declares .type f then f.type else .null) f.properties f.items f.additional f.enum := by
  unfold Fragment.keptKind kind
  rw [show f.fragment.properties = f.properties.map fun q => (q.name, q.required) from rfl,
    List.isEmpty_map]
  rfl

namespace Resolve

variable {setting : Setting} {roots : List SchemaPlace} {raw : Entries} {p : String} {n : Node}

/-! ### Plain schemas -/

/-- The values that a schema lists. -/
def listedValues (raw : Entries) : List Value := (enumValues raw "").toOption.getD []

/-- Null is allowed since it is one of the listed values, and no keyword is about it. -/
def nullImplied (raw : Entries) : Bool :=
  !(declared raw).contains .nullable && (listedValues raw).any Value.isNull

/-- The kind of a schema without a type follows from a keyword that says nothing further. -/
def kindImplied (raw : Entries) : Bool :=
  !raw.has "type" && (listedValues raw).all Value.isNull &&
    if raw.has "properties" || raw.has "additionalProperties" then
      (listedProperties raw []).isEmpty && !specifiesAdditional raw
    else raw.has "items" && (found raw "items").isNull

theorem found_of_has {key : String} (h : raw.has key = false) : found raw key = .null := by
  have hnone : raw.get? key = none := by simpa [Entries.has] using h
  rw [found, hnone]
  rfl

theorem isEmpty_listedProperties (required : List String) :
    (listedProperties raw required).isEmpty = (listedProperties raw []).isEmpty := by
  unfold listedProperties
  split
  · rw [List.isEmpty_map, List.isEmpty_map]
  · rfl

/-- What a schema of one type says, whatever its kind. -/
structure SingleFields (raw : Entries) (f : Fragment) : Prop where
  declared : f.declared = declared raw
  constraints : f.constraints = .ofEntries raw
  required : f.required = (required raw "").toOption.getD []
  format : f.format = found raw "format"
  enum : f.enum = (listedValues raw).filter fun v => !v.isNull
  nullable : f.nullable = ((commonFragment raw .primitive).nullable || (listedValues raw).any Value.isNull)
  properties : f.properties = [] ∨ f.properties = listedProperties raw f.required

theorem singleFields (raw : Entries) (type : Value) : SingleFields raw (singleFragment raw type) := by
  unfold singleFragment
  dsimp only
  split
  · exact ⟨rfl, rfl, rfl, rfl, rfl, rfl, .inl rfl⟩
  · split_ifs
    · exact ⟨rfl, rfl, rfl, rfl, rfl, rfl, .inr rfl⟩
    · exact ⟨rfl, rfl, rfl, rfl, rfl, rfl, .inl rfl⟩
    · exact ⟨rfl, rfl, rfl, rfl, rfl, rfl, .inl rfl⟩

theorem has_of_not_declares {a : Attribute} (hdeclared : n.declared = declared raw) (ha : a ≠ .nullable)
    (h : Merge.declares a n = false) (key : String) (hkey : key ∈ a.keywords) : raw.has key = false := by
  have hcontains := (Bool.or_eq_false_iff.1 h).1
  rw [hdeclared, contains_declared (.inl ha), List.any_eq_false] at hcontains
  simpa using hcontains key hkey

theorem map_fst_listedProperties (required : List String) :
    (listedProperties raw required).map Prod.fst = (listedProperties raw []).map Prod.fst := by
  unfold listedProperties
  split
  · rw [List.map_map, List.map_map]
    rfl
  · rfl

theorem mem_listedProperties {required : List String} {e : Scalar × Bool}
    (h : e ∈ listedProperties raw required) : e.2 = required.any fun r => e.1.same (.str r) := by
  unfold listedProperties at h
  split at h
  · obtain ⟨_, -, rfl⟩ := List.mem_map.1 h
    rfl
  · cases h

theorem nodup_required (raw : Entries) : ((required raw "").toOption.getD []).Nodup := by
  unfold required
  split
  · split
    · exact Assoc.nodup_distinct _
    · exact List.nodup_nil
  · exact List.nodup_nil

/-- No schema lists a property twice. -/
def PropertiesApart (doc : Value) (roots : List SchemaPlace) : Prop :=
  ∀ s, Reads doc roots s → ∀ raw ∈ schemaEntries? s.schema,
    (listedProperties raw []).Pairwise fun a b => a.1.same b.1 = false

theorem Plain.singleFields (h : Plain setting raw p n) (hflat : n.isComposed = false) :
    SingleFields raw n.fragment := by
  cases h with
  | types hseveral members => cases hflat
  | single hone h =>
    rw [h.fragment]
    exact Resolve.singleFields raw (soleType raw)

theorem Plain.regular (h : Plain setting raw p n) (hflat : n.isComposed = false)
    (hnames : (listedProperties raw []).Pairwise fun a b => a.1.same b.1 = false) : n.Regular := by
  have hfields := h.singleFields hflat
  have hdeclared : n.declared = declared raw := hfields.declared
  constructor
  case constraints =>
    rw [show n.constraints = _ from hfields.constraints]
    exact Constraints.normal_ofEntries raw
  case required =>
    rw [show n.required = _ from hfields.required]
    exact nodup_required raw
  case properties =>
    have hpairs : n.fragment.properties.Pairwise fun a b => a.1.same b.1 = false := by
      rcases hfields.properties with hnil | hlisted
      · rw [hnil]
        exact .nil
      · rw [hlisted]
        have hfst : ∀ l : List (Scalar × Bool), (l.Pairwise fun a b => a.1.same b.1 = false) ↔
            (l.map Prod.fst).Pairwise fun a b => a.same b = false := by
          intro l
          rw [List.pairwise_map]
        rw [hfst, map_fst_listedProperties, ← hfst]
        exact hnames
    exact List.pairwise_map.1 hpairs
  case flag =>
    intro q hq
    have hmem : (q.name, q.required) ∈ n.fragment.properties := List.mem_map_of_mem hq
    rcases hfields.properties with hnil | hlisted
    · rw [hnil] at hmem
      cases hmem
    · rw [hlisted] at hmem
      exact mem_listedProperties hmem
  case default =>
    intro hdefault
    have hfragment := h.fragment_eq
    rw [Merge.declares_eq, hfragment]
    refine declares_default_plainFragment ?_
    rw [← hfragment]
    exact hdefault
  case format =>
    intro hformat
    rw [show n.format = _ from hfields.format]
    exact found_of_has (has_of_not_declares hdeclared (by decide) hformat "format" (by decide))
  case enum =>
    intro henum
    have hnone : ∀ key ∈ Attribute.enum.keywords, raw.get? key = none := fun key hkey => by
      simpa [Entries.has] using has_of_not_declares hdeclared (by decide) henum key hkey
    rw [show n.enum = _ from hfields.enum, listedValues, enumValues, hnone "const" (by decide),
      hnone "enum" (by decide)]
    rfl
  case items =>
    -- the fragment only says whether there are items, so this goes by how the node is made
    intro hitems
    have hfound := found_of_has
      (has_of_not_declares hdeclared (by decide) hitems "items" (by decide))
    cases h with
    | types hseveral members => rfl
    | single hone h =>
      rw [h.items]
      unfold itemsId
      split
      · rw [hfound]
        rfl
      · rfl
  case additional =>
    intro hadditional
    have hfound := found_of_has
      (has_of_not_declares hdeclared (by decide) hadditional "additionalProperties" (by decide))
    cases h with
    | types hseveral members => rfl
    | single hone h =>
      rw [h.additional]
      unfold additionalId
      split
      · rw [additionalPlace, hfound]
      · rfl

theorem nullable_common (h : (declared raw).contains .nullable = false) :
    (commonFragment raw .primitive).nullable = false := by
  have hall : Attribute.nullable ∈ Attribute.all := by decide
  simp only [declared, List.contains_eq_mem, List.mem_filter, hall, true_and, beq_self_eq_true,
    Bool.true_and, decide_eq_false_iff_not, Bool.not_eq_true, Bool.or_eq_false_iff] at h
  obtain ⟨hkeywords, htype⟩ := h
  have hfound : ∀ key ∈ Attribute.nullable.keywords, found raw key = .null := by
    intro key hkey
    rw [List.any_eq_false] at hkeywords
    exact found_of_has (by simpa using hkeywords key hkey)
  change ((found raw "nullable").truthy || (found raw "x-nullable").truthy || _) = false
  rw [hfound "nullable" (by decide), hfound "x-nullable" (by decide)]
  exact htype

/-- Null is kept unless it is only implied. -/
theorem Plain.nullable_iff (h : Plain setting raw p n) (hflat : n.isComposed = false) :
    (Merge.declares .nullable n = false → n.nullable = false) ↔ nullImplied raw = false := by
  have hfields := h.singleFields hflat
  have hdeclares : Merge.declares .nullable n = (declared raw).contains .nullable := by
    rw [← show n.declared = declared raw from hfields.declared]
    simp [Merge.declares]
  rw [hdeclares, nullImplied, show n.nullable = _ from hfields.nullable]
  cases hcontains : (declared raw).contains .nullable with
  | true => simp
  | false =>
    rw [nullable_common hcontains]
    simp

/-- Is a schema of this type an object? -/
def asksObject (raw : Entries) (type : Value) : Bool :=
  type.same (.str "object") || raw.has "properties" || raw.has "additionalProperties"

/-- Is a schema of this type an array, if it is no object? -/
def asksArray (raw : Entries) (type : Value) : Bool := type.same (.str "array") || raw.has "items"

/-- What the kind of a schema of one type goes by. -/
inductive SingleKind (raw : Entries) (type : Value) (f : Fragment) : Prop
  | enum (henum : f.enum ≠ []) (hkind : f.kind = .enum)
  | object (henum : f.enum = []) (hasks : asksObject raw type = true) (hkind : f.kind = .object)
      (htype : f.type = .str "object") (hproperties : f.properties = listedProperties raw f.required)
      (hadditional : f.additional = specifiesAdditional raw) (hitems : f.items = false)
  | array (henum : f.enum = []) (hobject : asksObject raw type = false)
      (hasks : asksArray raw type = true) (hkind : f.kind = .array) (htype : f.type = .str "array")
      (hproperties : f.properties = []) (hadditional : f.additional = false)
      (hitems : f.items = !(found raw "items").isNull)
  | primitive (henum : f.enum = []) (hobject : asksObject raw type = false)
      (harray : asksArray raw type = false) (hkind : f.kind = .primitive) (htype : f.type = type)
      (hproperties : f.properties = []) (hadditional : f.additional = false) (hitems : f.items = false)

theorem singleKind (raw : Entries) (type : Value) : SingleKind raw type (singleFragment raw type) := by
  unfold singleFragment
  dsimp only
  split
  · next first rest henum => exact .enum (by simp [henum]) rfl
  · next henum =>
    split_ifs with hobject harray
    · exact .object henum hobject rfl rfl rfl rfl rfl
    · exact .array henum (Bool.eq_false_iff.2 hobject) harray rfl rfl rfl rfl rfl
    · exact .primitive henum (Bool.eq_false_iff.2 hobject) (Bool.eq_false_iff.2 harray) rfl rfl rfl rfl
        rfl

/-- The kind is kept unless it is only implied. -/
theorem keptKind_singleFragment_iff :
    (singleFragment raw (soleType raw)).keptKind = (singleFragment raw (soleType raw)).kind ↔
      kindImplied raw = false := by
  have hfields := Resolve.singleFields raw (soleType raw)
  have hdeclares : (singleFragment raw (soleType raw)).declares .type = raw.has "type" := by
    rw [Fragment.declares, hfields.declared, contains_declared (.inl (by decide))]
    simp [Attribute.keywords]
  have hempty : (singleFragment raw (soleType raw)).enum = [] ↔
      (listedValues raw).all Value.isNull = true := by
    rw [hfields.enum, List.filter_eq_nil_iff, List.all_eq_true]
    simp
  have hobject : Value.null.same (.str "object") = false := rfl
  have harray : Value.null.same (.str "array") = false := rfl
  unfold Fragment.keptKind
  rw [hdeclares]
  -- a type that is stated is kept, so only a schema without one can change its kind
  cases singleKind raw (soleType raw) with
  | enum henum hkind =>
    have hlisted : (listedValues raw).all Value.isNull = false :=
      Bool.eq_false_iff.2 fun h => henum (hempty.2 h)
    rw [hkind, if_pos (by simpa using henum)]
    exact iff_of_true rfl (by simp [kindImplied, hlisted])
  | object henum hasks hkind htype hproperties hadditional hitems =>
    rw [henum, hkind, htype, hproperties, isEmpty_listedProperties, hadditional, hitems]
    cases hhas : raw.has "type" with
    | true => exact iff_of_true rfl (by simp [kindImplied, hhas])
    | false =>
      have hkeyword : (raw.has "properties" || raw.has "additionalProperties") = true := by
        rwa [asksObject, soleType, found_of_has hhas, hobject, Bool.false_or] at hasks
      rw [kindImplied, hhas, hempty.1 henum, hkeyword]
      dsimp only
      rw [if_neg Bool.false_ne_true, hobject, harray]
      cases (listedProperties raw []).isEmpty <;> cases specifiesAdditional raw <;> simp
  | array henum hnot hasks hkind htype hproperties hadditional hitems =>
    rw [henum, hkind, htype, hproperties, hadditional, hitems]
    cases hhas : raw.has "type" with
    | true => exact iff_of_true rfl (by simp [kindImplied, hhas])
    | false =>
      rw [asksObject, soleType, found_of_has hhas, hobject, Bool.false_or] at hnot
      have hkeyword : raw.has "items" = true := by
        rwa [asksArray, soleType, found_of_has hhas, harray, Bool.false_or] at hasks
      rw [kindImplied, hhas, hempty.1 henum, hnot, hkeyword]
      dsimp only
      rw [if_neg Bool.false_ne_true, hobject, harray]
      cases (found raw "items").isNull <;> simp
  | primitive henum hnot hnot' hkind htype hproperties hadditional hitems =>
    rw [asksObject, Bool.or_assoc, Bool.or_eq_false_iff] at hnot
    rw [asksArray, Bool.or_eq_false_iff] at hnot'
    have hplain : kindImplied raw = false := by simp [kindImplied, hnot.2, hnot'.2]
    rw [henum, hkind, htype, hproperties, hadditional, hitems]
    dsimp only
    refine iff_of_true ?_ hplain
    cases raw.has "type" with
    | true => rw [if_pos rfl, hnot.1, hnot'.1]; rfl
    | false => rw [if_neg Bool.false_ne_true, hobject, harray]; rfl

theorem Plain.keptKind_iff (h : Plain setting raw p n) (hflat : n.isComposed = false) :
    n.fragment.keptKind = n.kind ↔ kindImplied raw = false := by
  cases h with
  | types hseveral members => cases hflat
  | single hone h =>
    rw [show n.kind = n.fragment.kind from rfl, h.fragment]
    exact keptKind_singleFragment_iff

theorem Plain.kept_iff (h : Plain setting raw p n) (hflat : n.isComposed = false) :
    n.Kept ↔ nullImplied raw = false ∧ kindImplied raw = false := by
  rw [← h.nullable_iff hflat, ← h.keptKind_iff hflat]
  exact ⟨fun hkept => ⟨hkept.nullable, hkept.kind⟩, fun hboth => ⟨hboth.1, hboth.2⟩⟩

/-! ### Merged schemas -/

section
variable {ns : List Node} {t : Value} {cs : Constraints} {discriminator : Option Discriminator}

theorem lastDeclaring?_of_not_declares {a : Attribute} (h : Merge.declares a
    (composed setting raw p (Merge.assembled p ns t cs) discriminator) = false) :
    Merge.lastDeclaring? ns a = none := by
  have hall : a ∈ Attribute.all := by cases a <;> decide
  rw [Merge.lastDeclaring?_eq_none_iff]
  intro f hf
  rw [← Bool.not_eq_true]
  intro hdeclares
  have hmerged : a ∈ (Merge.assembled p ns t cs).declared :=
    List.mem_filter.2 ⟨hall, List.any_eq_true.2 ⟨f, hf, hdeclares⟩⟩
  have hcomposed : a ∈ (composed setting raw p (Merge.assembled p ns t cs) discriminator).declared :=
    List.mem_filter.2 ⟨hall, by rw [List.contains_iff_mem.2 hmerged, Bool.true_or]⟩
  rw [Merge.declares, List.contains_iff_mem.2 hcomposed, Bool.true_or] at h
  cases h

theorem settled_of_not_declares {β : Type} {a : Attribute} {get : Node → β} {blank : β}
    (h : Merge.declares a (composed setting raw p (Merge.assembled p ns t cs) discriminator) = false) :
    Merge.settled ns a get blank = blank := by
  rw [Merge.settled, lastDeclaring?_of_not_declares h]
  rfl

/-- What has been merged is regular, whatever it has been merged from. -/
theorem regular_composed (hcs : cs.Normal)
    (hdefault : (Merge.default? ns).isSome = true → Merge.declares .default
      (composed setting raw p (Merge.assembled p ns t cs) discriminator) = true) :
    (composed setting raw p (Merge.assembled p ns t cs) discriminator).Regular := by
  constructor
  case constraints => exact hcs
  case required => exact Assoc.nodup_distinct _
  case properties => exact List.pairwise_map.2 (Merge.pairwise_foldl_insertProperty _ .nil)
  case flag =>
    intro q hq
    obtain ⟨r, -, rfl⟩ := List.mem_map.1 hq
    rfl
  case default => exact hdefault
  case format => exact settled_of_not_declares
  case enum => exact settled_of_not_declares
  case items =>
    intro h
    change (Merge.lastDeclaring? ns .items).bind (·.items) = none
    rw [lastDeclaring?_of_not_declares h]
    rfl
  case additional => exact settled_of_not_declares

/-- An object is one by its type if by nothing else. -/
theorem kind_of_kind (t : Value) (props : List Property) (items : Option String)
    (additional : Additional String) (enum : List Value) :
    Merge.kind (if Merge.kind t props items additional enum == .object then .str "object" else t) props
      items additional enum = Merge.kind t props items additional enum := by
  split
  · next hobject =>
    rw [beq_iff_eq] at hobject
    rw [hobject]
    unfold Merge.kind at hobject ⊢
    split at hobject
    · cases hobject
    · next henum => rw [if_neg henum, if_pos (by rfl)]
  · rfl

theorem keptKind_composed (ht : Merge.type setting.policy ns = .ok t) :
    (composed setting raw p (Merge.assembled p ns t cs) discriminator).fragment.keptKind =
      (composed setting raw p (Merge.assembled p ns t cs) discriminator).kind := by
  rw [Merge.keptKind_fragment]
  split
  · exact kind_of_kind ..
  · next hdeclares =>
    -- where no type is spelled out, none has been merged
    have hnone := lastDeclaring?_of_not_declares (Bool.eq_false_iff.2 hdeclares)
    have hfilter : ns.filter (Merge.declares .type) = [] := List.getLast?_eq_none_iff.1 hnone
    rw [Merge.type, hfilter] at ht
    obtain rfl := Except.ok.inj ht
    rfl

end

section
variable {stored : List Node} {beside : Option Node} {merged : Node}
  (h : MergedInto setting roots raw n stored beside merged)
include h

/-- What a node has been merged into, as an assembly of its limits and type. -/
theorem MergedInto.exists_assembled : ∃ q ns t cs discriminator, Merge.type setting.policy ns = .ok t ∧
    Constraints.Normal cs ∧ n = composed setting raw q (Merge.assembled q ns t cs) discriminator := by
  obtain ⟨discriminator, hn⟩ := h.eq
  obtain ⟨t, cs, ht, hcs, rfl⟩ := Merge.merge_ok h.merge
  obtain ⟨value, -, rfl⟩ := Merge.constraints_ok_iff.1 hcs
  exact ⟨n.id, _, t, _, discriminator, ht, ⟨value, rfl⟩, hn⟩

theorem MergedInto.regular (hdefault : n.default.isSome = true → Merge.declares .default n = true) :
    n.Regular := by
  obtain ⟨q, ns, t, cs, discriminator, -, hcs, rfl⟩ := h.exists_assembled
  exact regular_composed hcs hdefault

theorem MergedInto.kept : n.Kept := by
  obtain ⟨q, ns, t, cs, discriminator, ht, -, rfl⟩ := h.exists_assembled
  exact ⟨settled_of_not_declares, keptKind_composed ht⟩

end

/-! ### What the keywords at a place decide -/

/-- The schema at a place is merged, or spells out its kind and that null is allowed. -/
def SpelledOut (doc : Value) (roots : List SchemaPlace) (place : String) : Prop :=
  ∀ w raw, Reads doc roots ⟨place, w⟩ → schemaEntries? w = some raw → shape raw = .plain →
    nullImplied raw = false ∧ kindImplied raw = false

namespace Origin

variable (hdoc : Unambiguous setting.doc roots) (h : Origin setting roots n) (htarget : n.target = none)
  (hflat : n.isComposed = false)
include hdoc h htarget hflat

theorem regular (hapart : PropertiesApart setting.doc roots) : n.Regular := by
  obtain ⟨v, raw, hv, hraw, hcases⟩ := h.flat_cases htarget hflat
  rcases hcases with ⟨-, hplain⟩ | ⟨-, stored, beside, merged, hinto⟩
  · exact hplain.regular hflat (hapart _ hv raw hraw)
  · exact hinto.regular (h.denotes hdoc htarget hflat v hv).declares_default

theorem kept_iff : n.Kept ↔ SpelledOut setting.doc roots n.id := by
  obtain ⟨v, raw, hv, hraw, hcases⟩ := h.flat_cases htarget hflat
  have hsame : ∀ w raw', Reads setting.doc roots ⟨n.id, w⟩ → schemaEntries? w = some raw' →
      raw = raw' := by
    intro w raw' hw hraw'
    rw [hdoc.eq hw hv] at hraw'
    exact Option.some.inj (hraw.symm.trans hraw')
  rcases hcases with ⟨hshape, hplain⟩ | ⟨hshape, stored, beside, merged, hinto⟩
  · rw [hplain.kept_iff hflat]
    constructor
    · intro hspelled w raw' hw hraw' _
      rwa [hsame w raw' hw hraw'] at hspelled
    · exact fun hspelled => hspelled v raw hv hraw hshape
  · refine iff_of_true hinto.kept fun w raw' hw hraw' hshape' => ?_
    rw [← hsame w raw' hw hraw', hshape] at hshape'
    cases hshape'

end Origin

end Resolve
end OpenApi
