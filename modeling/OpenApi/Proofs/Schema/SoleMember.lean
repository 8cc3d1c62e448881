import OpenApi.Proofs.Schema.Regular
import OpenApi.Proofs.Schema.Siblings

/-!
Compositions of one schema. Such a composition says what the schema says, but for what the schema only
implies: that null is allowed since it is one of the listed values, or that values are objects or arrays
since a keyword stands there that says nothing further.
-/
namespace OpenApi

/-- Two nodes say the same of values, with the same parts. -/
structure Node.Agrees (n c : Node) : Prop where
  kind : n.kind = c.kind
  nullable : n.nullable = c.nullable
  enum : n.enum = c.enum
  format : n.format = c.format
  constraints : n.constraints = c.constraints
  default : n.default = c.default
  properties : n.properties = c.properties
  required : n.required = c.required
  items : n.items = c.items
  additional : n.additional = c.additional

namespace Merge

variable {policy : MergePolicy} {p : String} {f m : Node} {a : Attribute}

/-! ### The merge of one node -/

theorem lastDeclaring?_singleton (f : Node) (a : Attribute) :
    lastDeclaring? [f] a = if declares a f then some f else none := by
  rw [lastDeclaring?_cons]
  rfl

theorem settled_singleton {β : Type} (f : Node) (a : Attribute) (get : Node → β) (blank : β) :
    settled [f] a get blank = if declares a f then get f else blank := by
  rw [settled, lastDeclaring?_singleton]
  split <;> rfl

theorem settled_singleton_eq {β : Type} {get : Node → β} {blank : β}
    (h : declares a f = false → get f = blank) : settled [f] a get blank = get f := by
  rw [settled_singleton]
  cases hdeclares : declares a f with
  | true => rfl
  | false => exact (h hdeclares).symm

theorem required_singleton (hf : f.Regular) : required [f] = f.required := by
  rw [required, List.flatMap_singleton]
  exact Assoc.distinct_of_nodup hf.required

theorem properties_singleton (hf : f.Regular) : properties [f] = f.properties := by
  have hfold : f.properties.foldl insertProperty [] = f.properties :=
    puts_insertProperty.foldl_eq_append [] hf.properties
  unfold properties
  rw [List.flatMap_singleton, required_singleton hf, hfold]
  refine (List.map_congr_left fun q hq => ?_).trans (List.map_id _)
  rw [← hf.flag q hq]
  rfl

theorem constraints_singleton (hf : f.Regular) {cs : Constraints}
    (h : constraints policy [f] = .ok cs) : cs = f.constraints := by
  obtain ⟨value, hvalue, rfl⟩ := constraints_ok_iff.1 h
  refine Constraints.Normal.ext ⟨value, rfl⟩ hf.constraints fun l => ?_
  have hlimit : limit policy [f] l = .ok ((f.constraints.get? l).getD .null) := by
    rw [limit, List.filterMap_cons, List.filterMap_nil]
    cases f.constraints.get? l <;> rfl
  rw [Constraints.get?_ofFunction, Except.ok.inj ((hvalue l).symm.trans hlimit)]
  cases hget : f.constraints.get? l with
  | none => rfl
  | some v =>
    rw [Option.getD_some, hf.constraints.isNull_eq_false hget]
    rfl

theorem type_singleton {t : Value} (h : type policy [f] = .ok t) :
    t = if declares .type f then f.type else .null := by
  rw [type, List.filter_cons] at h
  split at h
  · next hdeclares =>
    rw [if_pos hdeclares]
    exact (Except.ok.inj h).symm
  · next hdeclares =>
    rw [if_neg hdeclares]
    exact (Except.ok.inj h).symm

theorem default?_singleton (hf : f.Regular) : default? [f] = f.default := by
  rw [default?, lastDeclaring?_singleton, List.any_cons, List.any_nil, Bool.or_false]
  cases hdefault : f.default with
  | none => rfl
  | some v =>
    have hdeclares := hf.default (by rw [hdefault]; rfl)
    rw [if_pos hdeclares, Option.bind_some, hdefault]
    rfl

/-- The merge of one node agrees with it if it keeps the kind and null. -/
theorem agrees_iff (hf : f.Regular) (h : merge policy p [f] = .ok m) : m.Agrees f ↔ f.Kept := by
  obtain ⟨t, cs, ht, hcs, rfl⟩ := merge_ok h
  have henum := settled_singleton_eq hf.enum
  have hformat := settled_singleton_eq hf.format
  have hadditional := settled_singleton_eq hf.additional
  have hitems : (lastDeclaring? [f] .items).bind (·.items) = f.items := by
    rw [lastDeclaring?_singleton]
    split
    · rfl
    · next hd => exact (hf.items (by simpa using hd)).symm
  have hkind : (assembled p [f] t cs).kind = f.fragment.keptKind := by
    rw [keptKind_fragment, ← type_singleton ht]
    dsimp only [assembled]
    rw [properties_singleton hf, hitems, hadditional, henum]
  have hnullable : (assembled p [f] t cs).nullable = f.nullable ↔
      (declares .nullable f = false → f.nullable = false) := by
    dsimp only [assembled]
    rw [settled_singleton]
    cases declares .nullable f with
    | true => simp
    | false => exact ⟨fun h _ => h.symm, fun h => (h rfl).symm⟩
  constructor
  · exact fun hagrees => ⟨hnullable.1 hagrees.nullable, hkind.symm.trans hagrees.kind⟩
  · intro hkept
    exact ⟨hkind.trans hkept.kind, hnullable.2 hkept.nullable, henum, hformat, constraints_singleton hf hcs,
      default?_singleton hf, properties_singleton hf, required_singleton hf, hitems, hadditional⟩

end Merge

namespace Resolve

variable {setting : Setting} {roots : List SchemaPlace} {raw : Entries} {p : String} {n : Node}

/-! ### What is kept of the sole schema of a composition -/

/-- Agreement is about layouts. -/
theorem agrees_of_layout {f c m : Node} (h : f.layout = c.layout) (hm : m.Agrees f) : m.Agrees c where
  kind := hm.kind.trans (congrArg (fun l : Layout => l.fragment.kind) h)
  nullable := hm.nullable.trans (congrArg (fun l : Layout => l.fragment.nullable) h)
  enum := hm.enum.trans (congrArg (fun l : Layout => l.fragment.enum) h)
  format := hm.format.trans (congrArg (fun l : Layout => l.fragment.format) h)
  constraints := hm.constraints.trans (congrArg (fun l : Layout => l.fragment.constraints) h)
  default := hm.default.trans (congrArg (fun l : Layout => l.fragment.default) h)
  properties := hm.properties.trans (congrArg Layout.properties h)
  required := hm.required.trans (congrArg (fun l : Layout => l.fragment.required) h)
  items := hm.items.trans (congrArg Layout.items h)
  additional := hm.additional.trans (congrArg Layout.additional h)

/-- The keywords beside a composition change nothing that agreement is about. -/
theorem agrees_composed_iff {merged c : Node} {discriminator : Option Discriminator} :
    (composed setting raw p merged discriminator).Agrees c ↔ merged.Agrees c :=
  ⟨fun h => ⟨h.kind, h.nullable, h.enum, h.format, h.constraints, h.default, h.properties, h.required,
    h.items, h.additional⟩, fun h => ⟨h.kind, h.nullable, h.enum, h.format, h.constraints, h.default,
    h.properties, h.required, h.items, h.additional⟩⟩

/-- A composition of one schema, with no keywords beside it that count as another. -/
structure ComposesOne (raw : Entries) (schema : Value) : Prop where
  ref : raw.has "$ref" = false
  all : raw.get? "allOf" = some (.list [schema])
  beside : isStructural (raw.without ["allOf"]) = false

/-- The node of such a composition is merged from one that is laid out as the schema behind its member. -/
theorem Completed.exists_sole {a : Arena} {table : SchemaTable} {v schema : Value} {c : Node}
    (h : Completed setting a table) (hdoc : Unambiguous setting.doc (rootPlaces setting.doc))
    (hv : Reads setting.doc (rootPlaces setting.doc) ⟨p, v⟩) (hraw : schemaEntries? v = some raw)
    (hone : ComposesOne raw schema) (hn : (p, n) ∈ table.nodes)
    (hc : table.concrete (Pointer.child (Pointer.child p "allOf") "0") = .ok c)
    (hflat : c.isComposed = false) :
    ∃ f merged discriminator, Origin setting (rootPlaces setting.doc) f ∧ f.target = none ∧
      f.isComposed = false ∧ f.id = c.id ∧ f.layout = c.layout ∧
      Merge.merge setting.policy p [f] = .ok merged ∧
      n = composed setting raw p merged discriminator := by
  have hid := h.closed.id_eq hn
  have hshape : shape raw = .composition :=
    shape_eq_composition_iff.2 ⟨hone.ref, by rw [Entries.has, hone.all]; rfl⟩
  have hall : found raw "allOf" = .list [schema] := by rw [found, hone.all, Option.getD_some]
  have hparts : branchParts raw p "allOf" =
      [⟨Pointer.child (Pointer.child p "allOf") "0", schema⟩] := branchParts_eq hall
  have hread := reads_branchParts hv hraw hshape (hparts ▸ List.mem_singleton_self _)
  have hdenotes := h.denotes_of_concrete hdoc hc hflat hread
  obtain ⟨htarget, hnflat⟩ :=
    h.flat_of_members hdoc hv hraw hshape hall (.cons hdenotes .nil) hn
  obtain ⟨stored, beside, merged, hinto⟩ :=
    (h.origin hn).merged_inv hdoc htarget hnflat (hid ▸ hv) hraw hshape
  -- one schema is merged, and nothing that stands beside it
  have hleads := hinto.leads
  rw [hid, hparts, List.forall₂_cons_left_iff] at hleads
  obtain ⟨f, _, hlead, hnil, rfl⟩ := hleads
  obtain rfl := List.forall₂_nil_left_iff.1 hnil
  have hmerge := hinto.merge
  have hbeside : beside = none := by simpa [hone.beside] using hinto.present
  rw [hbeside, Option.toList_none, List.nil_append, hid] at hmerge
  obtain ⟨discriminator, hcomposed⟩ := hinto.eq
  rw [hid] at hcomposed
  -- it is the one behind the member
  have hf := hinto.origin f List.mem_cons_self
  have hfflat := hinto.flat f List.mem_cons_self
  obtain ⟨hleads, hcmem⟩ := h.leadsTo_of_concrete hc
  have hsame : f.id = c.id := hlead.id_eq hdoc hleads hf (h.origin hcmem) hfflat hflat
  have hlayout := hf.layout_eq hdoc (h.origin hcmem) hlead.target hleads.target hfflat hflat hsame
  exact ⟨f, merged, discriminator, hf, hlead.target, hfflat, hsame, hlayout, hmerge, hcomposed⟩

/-- A composition of one schema agrees with it just if the schema spells out its kind and that null is
allowed. -/
theorem agrees_iff_spelledOut {doc v schema : Value} {policy : MergePolicy} {table : SchemaTable} {c : Node}
    (htable : SchemaTable.ofDocument doc policy = .ok table) (hdoc : Unambiguous doc (rootPlaces doc))
    (hapart : PropertiesApart doc (rootPlaces doc)) (hv : Reads doc (rootPlaces doc) ⟨p, v⟩)
    (hraw : schemaEntries? v = some raw) (hone : ComposesOne raw schema) (hn : table.node p = .ok n)
    (hc : table.concrete (Pointer.child (Pointer.child p "allOf") "0") = .ok c)
    (hflat : c.kind ≠ .union ∧ c.kind ≠ .intersection) :
    n.Agrees c ↔ SpelledOut doc (rootPlaces doc) c.id := by
  obtain ⟨names, a, h⟩ := SchemaTable.ofDocument_ok htable
  have hmem := Assoc.mem_of_lookup (SchemaTable.node_ok_iff.1 hn)
  have hflat' : c.isComposed = false := by simpa [Node.isComposed] using hflat
  obtain ⟨f, merged, discriminator, hf, htarget, hfflat, hid, hlayout, hmerge, rfl⟩ :=
    h.exists_sole hdoc hv hraw hone hmem hc hflat'
  have hregular := hf.regular hdoc htarget hfflat hapart
  calc (composed _ raw p merged discriminator).Agrees c
    _ ↔ merged.Agrees c := agrees_composed_iff
    _ ↔ merged.Agrees f := ⟨agrees_of_layout hlayout.symm, agrees_of_layout hlayout⟩
    _ ↔ f.Kept := Merge.agrees_iff hregular hmerge
    _ ↔ SpelledOut doc (rootPlaces doc) f.id := hf.kept_iff hdoc htarget hfflat
    _ ↔ SpelledOut doc (rootPlaces doc) c.id := by rw [hid]

/-- A document with accounts and a composition of one schema. -/
def aliasDocument (schema : Value) : Value :=
  .record [("components", .record [("schemas", .record [
    ("Account", .record [
      ("required", .list [.str "id"]),
      ("properties", .record [
        ("id", .record [("type", .str "integer")]), ("name", .record [("type", .str "string")])])]),
    ("Alias", .record [("allOf", .list [schema])])])])]

def accountReference : Value := .record [("$ref", .str "#/components/schemas/Account")]

def accountAlias : Value := aliasDocument accountReference

/-- Another name for accounts, which are objects since they have properties. -/
theorem accountAlias_agrees : ∃ table n c,
    SchemaTable.ofDocument accountAlias .strictestWins = .ok table ∧
      table.node "#/components/schemas/Alias" = .ok n ∧
      table.concrete "#/components/schemas/Alias/allOf/0" = .ok c ∧ c.properties.length = 2 ∧
      n.Agrees c := by
  have halias : Reads accountAlias (rootPlaces accountAlias)
      ⟨"#/components/schemas/Alias", .record [("allOf", .list [accountReference])]⟩ :=
    .root (by decide +kernel)
  have hread : ∃ places, Covers accountAlias (rootPlaces accountAlias) places ∧ OnceAmong places ∧
      ApartAmong places ∧
      ∀ s ∈ places, ∀ raw ∈ schemaEntries? s.schema,
        (listedProperties raw []).Pairwise (fun a b => a.1.same b.1 = false) ∧
        nullImplied raw = false ∧ kindImplied raw = false :=
    ⟨readWithin accountAlias 2 (rootPlaces accountAlias), by decide +kernel⟩
  obtain ⟨places, hcovers, honce, happart, hall⟩ := hread
  have hok : ∃ table, SchemaTable.ofDocument accountAlias .strictestWins = .ok table ∧
      (∃ n ∈ (table.node "#/components/schemas/Alias").toOption, n.kind = .object) ∧
      ∃ c ∈ (table.concrete "#/components/schemas/Alias/allOf/0").toOption,
        (c.kind ≠ .union ∧ c.kind ≠ .intersection) ∧ c.properties.length = 2 :=
    Outcome.exists_ok.2 (by decide +kernel)
  obtain ⟨table, htable, hn, hc⟩ := hok
  obtain ⟨n, hn, -⟩ := Outcome.exists_ok.2 hn
  obtain ⟨c, hc, hflat, hlength⟩ := Outcome.exists_ok.2 hc
  have hone : ComposesOne [(.str "allOf", .list [accountReference])] accountReference := ⟨rfl, rfl, rfl⟩
  have hiff := agrees_iff_spelledOut htable (hcovers.unambiguous honce happart)
    (fun s hs raw hraw => (hall s (hcovers.mem hs) raw hraw).1) halias rfl hone hn hc hflat
  refine ⟨table, n, c, htable, hn, hc, hlength, hiff.2 fun w raw hw hraw _ => ?_⟩
  exact (hall _ (hcovers.mem hw) raw hraw).2

/-- A text that may be null, since null is one of the listed values. -/
def gradeAlias : Value :=
  aliasDocument (.record [("type", .str "string"), ("enum", .list [.str "good", .null])])

theorem gradeAlias_disagrees : ∃ table n c,
    SchemaTable.ofDocument gradeAlias .strictestWins = .ok table ∧
      table.node "#/components/schemas/Alias" = .ok n ∧
      table.concrete "#/components/schemas/Alias/allOf/0" = .ok c ∧ c.kind = .enum ∧ ¬ n.Agrees c := by
  have hok : ∃ table, SchemaTable.ofDocument gradeAlias .strictestWins = .ok table ∧
      (∃ n ∈ (table.node "#/components/schemas/Alias").toOption, n.nullable = false) ∧
      ∃ c ∈ (table.concrete "#/components/schemas/Alias/allOf/0").toOption,
        c.kind = .enum ∧ c.nullable = true :=
    Outcome.exists_ok.2 (by decide +kernel)
  obtain ⟨table, htable, hn, hc⟩ := hok
  obtain ⟨n, hn, hnull⟩ := Outcome.exists_ok.2 hn
  obtain ⟨c, hc, hkind, hnull'⟩ := Outcome.exists_ok.2 hc
  refine ⟨table, n, c, htable, hn, hc, hkind, fun hagrees => ?_⟩
  have hsame := hagrees.nullable
  rw [hnull, hnull'] at hsame
  cases hsame

end Resolve
end OpenApi
