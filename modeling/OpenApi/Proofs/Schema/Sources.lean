import OpenApi.Proofs.Document
import OpenApi.Proofs.Schema.Reading

/-!
What schemas are made of. A schema that is read stands in the document, or is put together of entries
that do. So a schema inside another is smaller than it, and a reference names one of the places that
the document names.
-/
namespace OpenApi

open Value (entrySubvalues sizeEntries)

namespace Resolve
variable {doc v : Value} {raw : Entries} {pointer : String} {t : SchemaPlace}

/-- A schema no larger than the document, of values that stand there. A reference is one of the
document's own. -/
structure Drawn (doc v : Value) : Prop where
  size_le : v.size ≤ doc.size
  entries : ∀ raw, schemaEntries? v = some raw → ∀ e ∈ raw, e.2 ∈ doc.subvalues
  target : ∀ raw ref target, schemaEntries? v = some raw → raw.get? "$ref" = some (.str ref) →
    Pointer.normalize ref = .ok target → target ∈ Document.targets doc

theorem schemaEntries?_cases (h : schemaEntries? v = some raw) :
    v = .map raw ∨ v = .bool true ∧ raw = [] := by
  unfold schemaEntries? at h
  split at h
  · exact .inl (congrArg _ (Option.some.inj h))
  · exact .inr ⟨rfl, (Option.some.inj h).symm⟩
  · cases h

theorem size_of_schemaEntries? (h : schemaEntries? v = some raw) : v.size = sizeEntries raw + 1 := by
  rcases schemaEntries?_cases h with rfl | ⟨rfl, rfl⟩ <;> rfl

theorem Drawn.of_held (h : Held doc v) : Drawn doc v where
  size_le := h.size_le
  entries raw hraw e he := by
    rcases schemaEntries?_cases hraw with rfl | ⟨rfl, rfl⟩
    · exact h.entry he
    · cases he
  target raw ref target hraw href htarget := by
    rcases schemaEntries?_cases hraw with rfl | ⟨rfl, rfl⟩
    · exact Document.mem_targets h href htarget
    · cases href

theorem Drawn.of_entries {entries : Entries} (hsize : sizeEntries entries < doc.size)
    (hentries : ∀ e ∈ entries, e.2 ∈ doc.subvalues) (href : entries.get? "$ref" = none) :
    Drawn doc (.map entries) where
  size_le := hsize
  entries raw hraw := by
    obtain rfl := Option.some.inj hraw
    exact hentries
  target raw ref target hraw hget _ := by
    obtain rfl := Option.some.inj hraw
    rw [href] at hget
    cases hget

/-! ### Schemas inside a schema -/

theorem found_cases (raw : Entries) (key : String) :
    found raw key = .null ∨ found raw key ∈ entrySubvalues raw := by
  unfold found
  cases hget : raw.get? key with
  | none => exact .inl rfl
  | some x =>
    obtain ⟨k, hk, -⟩ := Entries.mem_of_find? hget
    exact .inr (Value.mem_entrySubvalues.2 ⟨_, hk, x.mem_subvalues_self⟩)

theorem mem_of_found {key : String} (hfound : found raw key = v) (hv : v ≠ .null) :
    v ∈ entrySubvalues raw := by
  rcases found_cases raw key with hnull | hmem
  · exact absurd (hfound.symm.trans hnull) hv
  · rwa [hfound] at hmem

theorem entrySubvalues_trans {w : Value} (hv : v ∈ entrySubvalues raw) (hw : w ∈ v.subvalues) :
    w ∈ entrySubvalues raw :=
  (Value.entrySublist_of_mem raw hv).subset hw

theorem mem_of_listed {key : String} {schemas : List Value} (hfound : found raw key = .list schemas)
    (ht : t ∈ listed pointer schemas) :
    t.schema ∈ entrySubvalues raw := by
  obtain ⟨⟨schema, i⟩, hi, rfl⟩ := List.mem_map.1 ht
  have hmem : schema ∈ schemas := List.fst_mem_of_mem_zipIdx hi
  exact entrySubvalues_trans (mem_of_found hfound nofun) (Value.mem_subvalues_of_item hmem)

theorem mem_of_branchParts {keyword : String} (ht : t ∈ branchParts raw pointer keyword) :
    t.schema ∈ entrySubvalues raw := by
  unfold branchParts at ht
  split at ht
  · next hfound => exact mem_of_listed hfound ht
  · cases ht

theorem mem_of_propertyParts (ht : t ∈ propertyParts raw pointer) : t.schema ∈ entrySubvalues raw := by
  unfold propertyParts at ht
  split at ht
  · next entries hentries =>
    obtain ⟨⟨name, schema⟩, he, hname⟩ := List.mem_filterMap.1 ht
    obtain ⟨text, -, rfl⟩ := Option.map_eq_some_iff.1 hname
    unfold Value.orEmpty at hentries
    split at hentries
    · have hmem := mem_of_found hentries nofun
      exact entrySubvalues_trans hmem (Value.mem_subvalues_of_entry he)
    · cases hentries
      cases he
  · cases ht

theorem mem_of_additionalParts (ht : t ∈ additionalParts raw pointer) :
    t.schema ∈ entrySubvalues raw := by
  unfold additionalParts at ht
  split at ht
  · next entries hfound =>
    rw [List.mem_singleton.1 ht]
    exact mem_of_found hfound nofun
  · cases ht

theorem mem_of_itemParts (ht : t ∈ itemParts raw pointer) : t.schema ∈ entrySubvalues raw := by
  unfold itemParts at ht
  split at ht
  · cases ht
  · next hfound => exact mem_of_listed hfound ht
  · next hnull hlist =>
    rw [List.mem_singleton.1 ht]
    exact mem_of_found rfl fun h => hnull h

theorem singleForm_ne_types (raw : Entries) (type : Value) (types : List Value) :
    singleForm raw type ≠ .types types := by
  unfold singleForm
  split
  · exact nofun
  · split
    · exact nofun
    · split
      · exact nofun
      · split <;> exact nofun

theorem form_eq_types {types : List Value} (h : form raw = .types types) :
    ∃ all, found raw "type" = .list all ∧ ∀ type ∈ types, type ∈ all := by
  unfold form at h
  split at h
  · next all hfound =>
    split at h
    · exact (singleForm_ne_types _ _ _ h).elim
    · exact (singleForm_ne_types _ _ _ h).elim
    · obtain rfl := Form.types.inj h
      exact ⟨all, hfound, fun type ht => (List.mem_filter.1 ht).1⟩
  · exact (singleForm_ne_types _ _ _ h).elim

/-- The parts of a schema without references and compositions stand in its entries, or repeat them with
one of several types. -/
theorem plainParts_cases (ht : t ∈ plainParts raw pointer) :
    t.schema ∈ entrySubvalues raw ∨ ∃ types type, found raw "type" = .list types ∧ type ∈ types ∧
      t.schema = .map (raw.without ["type", "nullable"] ++ [(.str "type", type)]) := by
  unfold plainParts at ht
  cases hform : form raw with
  | types types =>
    rw [hform] at ht
    obtain ⟨⟨schema, i⟩, hi, rfl⟩ := List.mem_map.1 ht
    obtain ⟨type, htype, rfl⟩ := List.mem_map.1 (List.fst_mem_of_mem_zipIdx hi)
    obtain ⟨all, hfound, hmem⟩ := form_eq_types hform
    exact .inr ⟨all, type, hfound, hmem type htype, rfl⟩
  | object =>
    rw [hform] at ht
    rcases List.mem_append.1 ht with ht | ht
    · exact .inl (mem_of_propertyParts ht)
    · exact .inl (mem_of_additionalParts ht)
  | array =>
    rw [hform] at ht
    exact .inl (mem_of_itemParts ht)
  | enum =>
    rw [hform] at ht
    cases ht
  | other =>
    rw [hform] at ht
    cases ht

namespace Drawn

variable {pointer : String} {t : SchemaPlace}

/-- A value inside an entry. -/
theorem inner (h : Drawn doc v) (hraw : schemaEntries? v = some raw) {w : Value}
    (hw : w ∈ entrySubvalues raw) : Drawn doc w ∧ w.size < v.size := by
  obtain ⟨e, he, hmem⟩ := Value.mem_entrySubvalues.1 hw
  refine ⟨.of_held (.inl (Value.subvalues_trans (h.entries raw hraw e he) hmem)), ?_⟩
  have hle := Value.size_le_of_mem_entries hw
  rw [size_of_schemaEntries? hraw]
  omega

/-- The parts of some of the entries of a schema, where none is a reference. -/
theorem plainPart (h : Drawn doc v) (hraw : schemaEntries? v = some raw) {kept : Entries}
    (hsub : ∀ e ∈ kept, e ∈ raw) (hsize : sizeEntries kept ≤ sizeEntries raw)
    (href : kept.get? "$ref" = none) (ht : t ∈ plainParts kept pointer) :
    Drawn doc t.schema ∧ t.schema.size < v.size := by
  rcases plainParts_cases ht with hmem | ⟨types, type, hfound, htype, hschema⟩
  · obtain ⟨e, he, hmem⟩ := Value.mem_entrySubvalues.1 hmem
    exact h.inner hraw (Value.mem_entrySubvalues.2 ⟨e, hsub e he, hmem⟩)
  · -- one type takes the place of the list of all
    have hget : kept.get? "type" = some (.list types) := by
      unfold found at hfound
      cases hget : kept.get? "type" with
      | none =>
        rw [hget] at hfound
        cases hfound
      | some x =>
        rw [hget] at hfound
        exact congrArg some hfound
    have hle := Entries.sizeEntries_without_le hget (List.mem_cons_self : "type" ∈ ["type", "nullable"])
    have hlt := Value.size_lt_of_item htype
    have hv := size_of_schemaEntries? hraw
    have hsmaller : sizeEntries (kept.without ["type", "nullable"] ++ [(.str "type", type)]) <
        sizeEntries raw := by
      rw [Entries.sizeEntries_append, sizeEntries, sizeEntries]
      omega
    rw [hschema]
    refine ⟨.of_entries ?_ ?_ ?_, ?_⟩
    · have hdoc := h.size_le
      omega
    · intro e he
      rcases List.mem_append.1 he with he | he
      · exact h.entries raw hraw e (hsub e (List.mem_filter.1 he).1)
      · obtain ⟨k, hk, -⟩ := Entries.mem_of_find? hget
        have hlist := h.entries raw hraw _ (hsub _ hk)
        rw [List.mem_singleton.1 he]
        exact Value.subvalues_trans hlist (Value.mem_subvalues_of_item htype)
    · rw [Entries.get?, Entries.find?_append, ← Entries.get?, Entries.get?_without (by decide), href]
      rfl
    · rw [Value.size]
      omega

/-- A schema inside a schema is smaller than it. -/
theorem part (h : Drawn doc v) (hraw : schemaEntries? v = some raw) (href : raw.get? "$ref" = none)
    (ht : t ∈ parts doc raw pointer) :
    Drawn doc t.schema ∧ t.schema.size < v.size := by
  unfold parts at ht
  rw [href] at ht
  dsimp only at ht
  split at ht
  · rcases List.mem_append.1 ht with ht | ht
    · exact h.inner hraw (mem_of_branchParts ht)
    · have hkept : (raw.without ["allOf"]).get? "$ref" = none := by
        rwa [Entries.get?_without (by decide)]
      exact h.plainPart hraw (fun e he => (List.mem_filter.1 he).1)
        (Entries.sizeEntries_filter_le raw _) hkept ht
  · split at ht
    · exact h.inner hraw (mem_of_branchParts ht)
    · split at ht
      · exact h.inner hraw (mem_of_branchParts ht)
      · exact h.plainPart hraw (fun _ => id) (Nat.le_refl _) href ht

/-- A reference leads to one of the places that the document names. -/
theorem targetPart (h : Drawn doc v) (hraw : schemaEntries? v = some raw) {ref : Value}
    (href : raw.get? "$ref" = some ref) (ht : t ∈ Resolve.targetPart doc ref) :
    t.pointer ∈ Document.targets doc ∧ Document.resolve doc t.pointer = .ok t.schema := by
  unfold Resolve.targetPart at ht
  split at ht
  · split at ht
    · next hpointer =>
      split at ht
      · next hschema =>
        rw [List.mem_singleton.1 ht]
        exact ⟨h.target raw _ _ hraw href hpointer, hschema⟩
      · cases ht
    · cases ht
  · cases ht

theorem of_resolve (h : Document.resolve doc pointer = .ok v) : Drawn doc v :=
  .of_held (.inl (Document.mem_of_resolve h))

end Drawn

/-- A part of a schema that stands inside it: no reference leads there. -/
def Inside (doc : Value) (s t : SchemaPlace) : Prop :=
  ∃ raw, schemaEntries? s.schema = some raw ∧ raw.get? "$ref" = none ∧ t ∈ parts doc raw s.pointer

theorem Inside.size_lt {s : SchemaPlace} (h : Inside doc s t) (hs : Drawn doc s.schema) :
    Drawn doc t.schema ∧ t.schema.size < s.schema.size := by
  obtain ⟨raw, hraw, href, ht⟩ := h
  exact hs.part hraw href ht

theorem parts_of_ref {ref : Value} (href : raw.get? "$ref" = some ref) (pointer : String) :
    parts doc raw pointer = targetPart doc ref := by
  rw [parts, href]

theorem Reads.drawn {roots : List SchemaPlace} {s : SchemaPlace} (h : Reads doc roots s)
    (hroots : ∀ r ∈ roots, Drawn doc r.schema) : Drawn doc s.schema := by
  induction h with
  | root h => exact hroots _ h
  | @part s t raw _ hraw ht ih =>
    cases href : raw.get? "$ref" with
    | none => exact (ih.part hraw href ht).1
    | some ref =>
      rw [parts_of_ref href] at ht
      exact .of_resolve (ih.targetPart hraw href ht).2

end Resolve

/-! ### The places that a document holds schemas at -/

namespace Walk
variable {α : Type} {P : SchemaPlace → Prop}

/-- A walk that finds only what satisfies `P`, and stops only for what is wrong at one place. -/
structure Finds (P : SchemaPlace → Prop) (w : Walk) : Prop where
  found : ∀ s ∈ w.found, P s
  fault : ∀ e ∈ w.fault, e.isLocal = true

namespace Finds

theorem nothing : Finds P .nothing :=
  ⟨List.forall_mem_nil _, fun _ he => nomatch he⟩

theorem one {pointer : String} {schema : Value} (h : P ⟨pointer, schema⟩) :
    Finds P (.one pointer schema) :=
  ⟨List.forall_mem_singleton.2 h, fun _ he => nomatch he⟩

theorem append {a b : Walk} (ha : Finds P a) (hb : Finds P b) : Finds P (a ++ b) := by
  change Finds P (Walk.append a b)
  unfold Walk.append
  split
  · next fault hfault => exact ⟨ha.found, fun e he => ha.fault e (hfault ▸ he)⟩
  · exact ⟨List.forall_mem_append.2 ⟨ha.found, hb.found⟩, hb.fault⟩

theorem each {items : List α} {walk : α → Walk} (h : ∀ x ∈ items, Finds P (walk x)) :
    Finds P (.each items walk) := by
  induction items with
  | nil => exact nothing
  | cons x rest ih =>
    obtain ⟨hx, hrest⟩ := List.forall_mem_cons.1 h
    exact hx.append (ih hrest)

theorem after {c : Checked α} {walk : α → Walk} (hc : Local c)
    (h : ∀ x, c = .ok x → Finds P (walk x)) : Finds P (.after c walk) := by
  cases c with
  | ok x => exact h x rfl
  | error e =>
    refine ⟨List.forall_mem_nil _, fun e' he => ?_⟩
    obtain rfl := Option.some.inj he
    exact hc e rfl

theorem whenHeld {test : Checked Bool} {walk : Walk} (hc : Local test) (h : Finds P walk) :
    Finds P (.whenHeld test walk) := by
  refine after hc fun held _ => ?_
  split
  · exact h
  · exact nothing

end Finds
end Walk

/-- What is said of values at pointers, and goes over to what is found below a value or by its references. The
elements of a value are found below it unless they are scalars. -/
structure Descends (doc : Value) (L : String → Value → Prop) : Prop where
  deref {v w : Value} {p q : String} (h : L p v) (hd : Document.deref doc v p = .ok (w, q)) : L q w
  entry {entries : Entries} {p name : String} {e : Scalar × Value} (h : L p (.map entries))
    (he : e ∈ entries) (hname : e.1.text = .ok name) : L (Pointer.child p name) e.2
  element {v w : Value} {items : List Value} {p : String} {i : Nat} (h : L p v)
    (hitems : v.elements = .ok items) (hi : items[i]? = some w) :
    L (Pointer.child p (Nat.repr i)) w ∨ ∃ x, w = .scalar x

/-- It is said of all entries of a value. -/
def Below (L : String → Value → Prop) (pointer : String) (v : Value) : Prop :=
  ∀ entries, v.entries = .ok entries → ∀ e ∈ entries, ∀ name, e.1.text = .ok name →
    L (Pointer.child pointer name) e.2

/-- It is said of a schema, or of the parameter that spells the schema in place. -/
def Stands (L : String → Value → Prop) (s : SchemaPlace) : Prop :=
  L s.pointer s.schema ∨
    ∃ param, L s.pointer param ∧ Document.inlineSchema? param = .ok (some s.schema)

theorem Below.empty {L : String → Value → Prop} {pointer : String} : Below L pointer (.map []) := by
  rintro _ ⟨⟩ e he
  cases he

namespace Descends

variable {doc v w : Value} {L : String → Value → Prop} {pointer key : String} (hL : Descends doc L)
include hL

theorem below (h : L pointer v) : Below L pointer v := by
  intro entries hentries e he name hname
  rw [Value.entries_ok hentries] at h
  exact hL.entry h he hname

theorem item (h : L pointer v) (hw : v.item (.str key) = .ok w) : L (Pointer.child pointer key) w := by
  obtain ⟨entries, rfl, hmem⟩ := Value.item_str_ok hw
  exact hL.entry h hmem rfl

theorem getD {default : Value} (h : L pointer v) (hw : v.getD key default = .ok w) :
    L (Pointer.child pointer key) w ∨ w = default := by
  obtain ⟨entries, hentries, rfl⟩ := Outcome.bind_pure_ok.1 hw
  cases hfound : entries.get? key with
  | none => exact .inr rfl
  | some x =>
    obtain ⟨k, hk, hsame⟩ := Entries.mem_of_find? hfound
    obtain rfl := Scalar.same_str_iff.1 hsame
    exact .inl (hL.below h entries hentries _ hk key rfl)

theorem below_getD (h : L pointer v) (hw : v.getD key (.map []) = .ok w) :
    Below L (Pointer.child pointer key) w := by
  rcases hL.getD h hw with h | rfl
  · exact hL.below h
  · exact .empty

/-- What stands in place of nothing has no entries. -/
theorem below_get (h : L pointer v) (hw : v.get key = .ok w) :
    Below L (Pointer.child pointer key) w.orEmpty := by
  rcases w.orEmpty_cases with heq | heq
  · rw [heq]
    rcases hL.getD h hw with h | rfl
    · exact hL.below h
    · exact fun _ hentries => by cases hentries
  · rw [heq]
    exact .empty

end Descends

namespace SchemaPlaces
open Resolve Walk

/-- There is no schema in a scalar that stands in place of a parameter. -/
theorem ofParameter_scalar {doc : Value} {P : SchemaPlace → Prop} (x : Scalar) (pointer : String) :
    Finds P (ofParameter doc (.scalar x) pointer) := by
  refine .after (Document.deref_local doc _ pointer) fun (param, q) hparam => ?_
  obtain rfl : Value.scalar x = param := by
    cases hparam
    rfl
  refine .append (.append ?_ ?_) ?_
  · exact .whenHeld (Value.has_local _ _) (.after (Value.item_local _ _) fun _ hschema => by cases hschema)
  · refine .after (Document.inlineSchema?_local _) fun found hfound => ?_
    cases found with
    | none => exact .nothing
    | some schema =>
      obtain ⟨entries, hentries, -⟩ := Document.inlineSchema?_eq_some hfound
      cases hentries
  · refine .after (Value.getD_local _ _ _) fun content hcontent => ?_
    obtain ⟨entries, hentries, -⟩ := Outcome.bind_ok.1 hcontent
    cases hentries

section
variable {doc v : Value} {L : String → Value → Prop} {pointer : String} (hL : Descends doc L)
include hL

theorem schemaOf_finds (h : L pointer v) : Finds (Stands L) (schemaOf v pointer) :=
  .after (v.item_local _) fun _ hschema => .one (.inl (hL.item h hschema))

theorem mediaTypes_finds (h : Below L (Pointer.child pointer "content") v)
    {schemaIn : Value → Checked Bool} (hlocal : ∀ media, Local (schemaIn media)) :
    Finds (Stands L) (mediaTypes v pointer schemaIn) := by
  refine .after v.entries_local fun entries hentries => .each fun e he => ?_
  refine .whenHeld (hlocal e.2) (.after e.1.text_local fun name hname => ?_)
  exact schemaOf_finds hL (h entries hentries e he name hname)

theorem ofParameter_finds (h : L pointer v) : Finds (Stands L) (ofParameter doc v pointer) := by
  refine .after (Document.deref_local doc v pointer) fun (param, pointer) hparam => ?_
  have h := hL.deref h hparam
  refine .append (.append ?_ ?_) ?_
  · exact .whenHeld (param.has_local _) (schemaOf_finds hL h)
  · refine .after (Document.inlineSchema?_local param) fun found hfound => ?_
    cases found with
    | none => exact .nothing
    | some schema => exact .one (.inr ⟨param, h, hfound⟩)
  · refine .after (param.getD_local _ _) fun content hcontent => ?_
    exact mediaTypes_finds hL (hL.below_getD h hcontent) fun media => media.has_local _

theorem ofMessage_finds (h : L pointer v) : Finds (Stands L) (ofMessage doc v pointer) := by
  refine .after (Document.deref_local doc v pointer) fun (message, pointer) hmessage => ?_
  have h := hL.deref h hmessage
  refine .append (.append ?_ ?_) ?_
  · exact .whenHeld (message.has_local _) (schemaOf_finds hL h)
  · refine .after (message.get_local _) fun content hcontent => ?_
    refine mediaTypes_finds hL (hL.below_get h hcontent) fun media => ?_
    unfold mediaHasSchema
    split
    · exact .ok
    · exact .ok
  · refine .after ((message.get_local _).bind fun _ _ => Value.entries_local _) fun headers hheaders => ?_
    obtain ⟨found, hfound, hheaders⟩ := Outcome.bind_ok.1 hheaders
    refine .each fun e he => .after e.1.text_local fun name hname => ?_
    exact ofParameter_finds hL (hL.below_get h hfound headers hheaders e he name hname)

theorem ofParameters_finds (h : L pointer v) : Finds (Stands L) (ofParameters doc v pointer) := by
  refine .after ((v.getD_local _ _).bind fun v _ => v.elements_local) fun params hparams => ?_
  obtain ⟨found, hfound, hparams⟩ := Outcome.bind_ok.1 hparams
  refine .each fun (param, i) hmem => ?_
  have hi := List.mk_mem_zipIdx_iff_getElem?.1 hmem
  rcases hL.getD h hfound with h | rfl
  · rcases hL.element h hparams hi with h | ⟨x, rfl⟩
    · exact ofParameter_finds hL h
    · exact ofParameter_scalar x _
  · cases hparams
    cases hmem

theorem ofOperation_finds (h : L pointer v) : Finds (Stands L) (ofOperation doc v pointer) := by
  refine .append (.append (ofParameters_finds hL h) ?_) ?_
  · refine .whenHeld (v.has_local _) (.after (v.item_local _) fun body hbody => ?_)
    exact ofMessage_finds hL (hL.item h hbody)
  · refine .after ((v.getD_local _ _).bind fun v _ => v.entries_local) fun responses hall => ?_
    obtain ⟨found, hfound, hall⟩ := Outcome.bind_ok.1 hall
    refine .each fun e he => .after e.1.text_local fun status hstatus => ?_
    exact ofMessage_finds hL (hL.below_getD h hfound responses hall e he status hstatus)

theorem ofPathItem_finds {path : Scalar}
    (h : ∀ text, path.text = .ok text → L (Pointer.child "#/paths" text) v) :
    Finds (Stands L) (ofPathItem doc path v) := by
  refine .after (path.text_local.bind fun _ _ => Document.deref_local doc v _) fun (item, pointer) hitem => ?_
  obtain ⟨text, htext, hitem⟩ := Outcome.bind_ok.1 hitem
  have h := hL.deref (h text htext) hitem
  refine .append (ofParameters_finds hL h) (.after item.entries_local fun entries hentries => ?_)
  refine .each fun (key, operation) he => ?_
  dsimp only
  split
  · next method hmethod =>
    have hkey : key.text = .ok method := by
      unfold Document.method? at hmethod
      split at hmethod
      · split at hmethod
        · cases hmethod
          rfl
        · cases hmethod
      · cases hmethod
    exact ofOperation_finds hL (hL.below h entries hentries _ he method hkey)
  · exact .nothing

omit hL in
theorem ofSection_finds {name : String} {walk : Value → String → Walk}
    (h : ∀ w, v.getD name (.map []) = .ok w → Below L (Pointer.child "#/components" name) w)
    (hwalk : ∀ {w pointer}, L pointer w → Finds (Stands L) (walk w pointer)) :
    Finds (Stands L) (ofSection v name walk) := by
  refine .after ((v.getD_local _ _).bind fun v _ => v.entries_local) fun entries hall => ?_
  obtain ⟨found, hfound, hall⟩ := Outcome.bind_ok.1 hall
  refine .each fun e he => .after e.1.text_local fun key hkey => ?_
  exact hwalk (h found hfound entries hall e he key hkey)

/-- All that the walk through a document finds stands below its root, if the named schemas do. -/
theorem ofDocument_finds {names : List (String × Value)} (h : L "#" doc)
    (hnames : Finds (Stands L) (ofNames doc names)) : Finds (Stands L) (ofDocument doc names) := by
  refine .append (.append hnames ?_) ?_
  · refine .after (doc.getD_local _ _) fun components hcomponents => ?_
    have hsection : ∀ name w, components.getD name (.map []) = .ok w →
        Below L (Pointer.child "#/components" name) w := by
      intro name w hw
      rcases hL.getD h hcomponents with h | rfl
      · exact hL.below_getD h hw
      · cases hw
        exact .empty
    refine .append (.append (.append ?_ ?_) ?_) ?_
    · exact ofSection_finds (hsection _) (ofParameter_finds hL)
    · exact ofSection_finds (hsection _) (ofMessage_finds hL)
    · exact ofSection_finds (hsection _) (ofMessage_finds hL)
    · exact ofSection_finds (hsection _) (ofParameter_finds hL)
  · refine .after ((Document.paths_local doc).bind fun v _ => v.entries_local) fun paths hpaths => ?_
    obtain ⟨held, hheld, hpaths⟩ := Outcome.bind_ok.1 hpaths
    obtain ⟨found, hfound, rfl⟩ := Outcome.bind_pure_ok.1 hheld
    exact .each fun e he => ofPathItem_finds hL (hL.below_get h hfound paths hpaths e he)

end

/-- What a parameter spells in place are entries of its own. -/
theorem drawn_inlineSchema {doc param schema : Value} (h : Held doc param)
    (hschema : Document.inlineSchema? param = .ok (some schema)) : Drawn doc schema := by
  obtain ⟨entries, hentries, rfl⟩ := Document.inlineSchema?_eq_some hschema
  obtain rfl := Value.entries_ok hentries
  refine .of_entries ?_ (fun e he => h.entry (List.mem_filter.1 he).1) ?_
  · have hfilter := Entries.sizeEntries_filter_le entries fun e =>
      Document.inlineKeywords.any fun key => e.1.same (.str key)
    have hsize := h.size_le
    rw [Value.size] at hsize
    omega
  · rw [← Option.not_isSome_iff_eq_none]
    intro hsome
    obtain ⟨ref, href⟩ := Option.isSome_iff_exists.1 hsome
    obtain ⟨k, hk, hsame⟩ := Entries.mem_of_find? href
    obtain rfl := Scalar.same_str_iff.1 hsame
    have hkeyword : ¬ (Document.inlineKeywords.any fun key => (Scalar.str "$ref").same (.str key)) =
      true := by decide
    exact hkeyword (List.mem_filter.1 hk).2

theorem descends_held (doc : Value) : Descends doc fun _ v => Held doc v where
  deref h hd := (Document.deref_ok h hd).1
  entry h he _ := .inl (h.entry he)
  element h hitems hi := .inl (h.elements hitems (List.mem_of_getElem? hi))

/-- A walk through a document finds schemas that are made of what stands there. -/
theorem ofDocument_draws (doc : Value) (names : List (String × Value)) :
    Finds (fun s => Drawn doc s.schema) (ofDocument doc names) := by
  have hnames : Finds (Stands fun _ v => Held doc v) (ofNames doc names) := by
    refine .each fun e _ => ?_
    refine .after ((Document.schemas_local doc).bind fun v _ => v.item_local _) fun schema hschema => ?_
    obtain ⟨held, hheld, hschema⟩ := Outcome.bind_ok.1 hschema
    exact .one (.inl ((Document.held_schemas hheld).find hschema))
  have hfinds := ofDocument_finds (descends_held doc) (.inl doc.mem_subvalues_self) hnames
  refine ⟨fun s hs => ?_, hfinds.fault⟩
  rcases hfinds.found s hs with h | ⟨param, h, hschema⟩
  · exact .of_held h
  · exact drawn_inlineSchema h hschema

end SchemaPlaces

theorem Resolve.drawn_rootPlaces (doc : Value) :
    ∀ s ∈ rootPlaces doc, Drawn doc s.schema := by
  unfold rootPlaces
  split
  · next names _ => exact (SchemaPlaces.ofDocument_draws doc names).found
  · exact List.forall_mem_nil _

end OpenApi
