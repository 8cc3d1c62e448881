import OpenApi.Proofs.Operation.Keys
import OpenApi.Proofs.Schema.Components

/-!
The schemas of operations. Operations record the pointers of schemas while they are read, and a walk
through the document finds the places of schemas on its own. Every pointer that is recorded is the
pointer of a place that the walk finds, as long as bodies and responses describe their media types by
mappings.
-/
namespace OpenApi

open Outcome (bind_ok pure_ok mapM_ok)

variable {content : Value}

/-! ### Places that a walk comes to -/

namespace Walk
variable {α : Type} {pointer : String}

/-- Unless a fault stops it, the walk finds a schema at this pointer. -/
def Meets (w : Walk) (pointer : String) : Prop :=
  w.fault = none → ∃ s ∈ w.found, s.pointer = pointer

namespace Meets

variable {walk : α → Walk}

theorem one {schema : Value} : Meets (one pointer schema) pointer :=
  fun _ => ⟨_, List.mem_singleton_self _, rfl⟩

theorem left {a b : Walk} (h : a.Meets pointer) : (a ++ b).Meets pointer := by
  intro hfault
  obtain ⟨ha, -, hfound⟩ := append_of_fault hfault
  obtain ⟨s, hs, heq⟩ := h ha
  exact ⟨s, hfound ▸ List.mem_append_left _ hs, heq⟩

theorem right {a b : Walk} (h : b.Meets pointer) : (a ++ b).Meets pointer := by
  intro hfault
  obtain ⟨-, hb, hfound⟩ := append_of_fault hfault
  obtain ⟨s, hs, heq⟩ := h hb
  exact ⟨s, hfound ▸ List.mem_append_right _ hs, heq⟩

theorem each {items : List α} {x : α} (hx : x ∈ items) (h : (walk x).Meets pointer) :
    (each items walk).Meets pointer := by
  intro hfault
  obtain ⟨hwalk, hfound⟩ := each_of_fault hfault hx
  obtain ⟨s, hs, heq⟩ := h hwalk
  exact ⟨s, hfound s hs, heq⟩

theorem after {a : Checked α} (h : ∀ x, a = .ok x → (walk x).Meets pointer) :
    (after a walk).Meets pointer := by
  intro hfault
  obtain ⟨x, hx, hwalk⟩ := after_of_fault hfault
  rw [hwalk] at hfault ⊢
  exact h x hx hfault

theorem after_ok {a : Checked α} {x : α} (ha : a = .ok x) (h : (walk x).Meets pointer) :
    (Walk.after a walk).Meets pointer := by
  rw [ha]
  exact h

theorem whenHeld {test : Checked Bool} {walk : Walk} (htest : test = .ok true)
    (h : walk.Meets pointer) : (whenHeld test walk).Meets pointer := by
  rw [htest]
  exact h

end Meets
end Walk

namespace SchemaPlaces
open Walk (Meets)

variable {doc : Value} {pointer : String}

theorem schemaOf_meets (holder : Value) :
    (schemaOf holder pointer).Meets (Pointer.child pointer "schema") :=
  .after fun _ _ => .one

theorem mediaTypes_meets {content media : Value} {entries : Entries} {key : Scalar} {name : String}
    {schemaIn : Value → Checked Bool} (hentries : content.entries = .ok entries)
    (hmem : (key, media) ∈ entries) (hname : key.text = .ok name) (hheld : schemaIn media = .ok true) :
    (mediaTypes content pointer schemaIn).Meets (Pointer.join pointer ["content", name, "schema"]) := by
  refine .after_ok hentries (.each hmem (.whenHeld hheld ?_))
  exact .after_ok hname (schemaOf_meets media)

end SchemaPlaces

/-! ### Values in place of nothing -/

namespace Value

variable {v : Value}

theorem eq_map_of_orEmpty {entries : Entries} (h : v.orEmpty.entries = .ok entries) {e : Scalar × Value}
    (he : e ∈ entries) : v = .map entries := by
  rcases v.orEmpty_cases with heq | heq
  · exact entries_ok (heq ▸ h)
  · rw [heq] at h
    cases h
    cases he

/-- A default does not matter where there is a value. -/
theorem getD_of_get {w default : Value} {key : String} (h : v.get key = .ok w) (hw : w ≠ .null) :
    v.getD key default = .ok w := by
  obtain ⟨entries, hentries, h⟩ := bind_ok.1 h
  refine bind_ok.2 ⟨entries, hentries, ?_⟩
  cases hfound : entries.get? key with
  | none =>
    rw [hfound] at h
    exact absurd (pure_ok.1 h).symm hw
  | some x =>
    rw [hfound] at h
    exact h

/-- What has a key in place of nothing has it. -/
theorem has_of_orEmpty {key : String} (h : v.orEmpty.has key = .ok true) : v.has key = .ok true := by
  rcases v.orEmpty_cases with heq | heq
  · rwa [heq] at h
  · rw [heq] at h
    cases h

end Value

/-! ### Schemas of parameters -/

open Walk (Meets)

variable {doc raw : Value} {pointer id : String}

/-- The media type of a schema that is read is one of the content. -/
theorem mediaSchema_ok {name : Value} (h : mediaSchema content name pointer = .ok (some id)) :
    ∃ media text, content.item name = .ok media ∧ media.has "schema" = .ok true ∧
      name.text = .ok text ∧ id = Pointer.join pointer ["content", text, "schema"] := by
  obtain ⟨media, hmedia, h⟩ := bind_ok.1 h
  obtain ⟨held, hheld, h⟩ := bind_ok.1 h
  split at h
  · next htrue =>
    obtain ⟨text, htext, h⟩ := bind_ok.1 h
    rw [htrue] at hheld
    exact ⟨media, text, hmedia, Value.has_of_orEmpty hheld, htext,
      (Option.some.inj (pure_ok.1 h)).symm⟩
  · cases h

/-- The walk goes through contents that are mappings, and the only media type of one is an entry. -/
theorem singleMedia_meets {name : Value} (hname : content.orEmpty.elements = .ok [name])
    (h : mediaSchema content.orEmpty name pointer = .ok (some id)) :
    (SchemaPlaces.mediaTypes content pointer fun media => media.has "schema").Meets id := by
  intro hfault
  obtain ⟨entries, hentries, -⟩ := Walk.after_of_fault hfault
  obtain rfl := Value.entries_ok hentries
  rw [Value.orEmpty_map] at hname h
  obtain ⟨media, text, hmedia, hheld, htext, rfl⟩ := mediaSchema_ok h
  -- the elements of a mapping are its keys, so there is one entry
  obtain ⟨⟨key, found⟩, rfl, rfl⟩ := List.map_eq_singleton_iff.1 (Except.ok.inj hname)
  have hfound : found = media := by
    simpa [Value.item, Entries.find?, Scalar.same_self] using hmedia
  exact SchemaPlaces.mediaTypes_meets hentries (List.mem_singleton_self _) htext (hfound ▸ hheld) hfault

theorem Parameter.parseSchema_meets {entries : Entries} {contentType : Option Scalar} {q : String}
    (hderef : Document.deref doc raw pointer = .ok (.map entries, q))
    (h : parseSchema entries q = .ok (some id, contentType)) :
    (SchemaPlaces.ofParameter doc raw pointer).Meets id := by
  refine .after_ok hderef ?_
  unfold parseSchema at h
  split at h
  · next hschema =>
    cases h
    exact .left (.left (.whenHeld (congrArg Except.ok hschema) (SchemaPlaces.schemaOf_meets _)))
  · split at h
    · next content hcontent =>
      have hfound : (Value.map entries).getD "content" (.map []) = .ok content := by
        change Except.ok ((Entries.get? entries "content").getD (.map [])) = _
        rw [hcontent]
        rfl
      refine .right (.after_ok hfound ?_)
      obtain ⟨names, hnames, h⟩ := bind_ok.1 h
      split at h
      · obtain ⟨schema, hschema, h⟩ := bind_ok.1 h
        suffices heq : schema = some id from singleMedia_meets hnames (heq ▸ hschema)
        split at h
        · cases h
          rfl
        · cases h
          rfl
        · cases h
      · cases h
    · -- a schema that is spelt in place is at the place of the parameter
      obtain ⟨schema, hschema, h⟩ := bind_ok.1 h
      refine .left (.right (.after_ok hschema ?_))
      cases schema with
      | none => cases h
      | some schema =>
        cases h
        exact .one

theorem Parameter.parse_meets {p : Parameter} (h : parse doc raw pointer = .ok (some p))
    (hid : p.schema = some id) : (SchemaPlaces.ofParameter doc raw pointer).Meets id := by
  obtain ⟨⟨param, q⟩, hderef, h⟩ := bind_ok.1 h
  dsimp only at h
  split at h
  · split at h
    · split at h
      · cases h
      · split at h
        · obtain ⟨shown, -, h⟩ := bind_ok.1 h
          cases h
        · obtain ⟨format, -, h⟩ := bind_ok.1 h
          obtain ⟨⟨schema, contentType⟩, hschema, h⟩ := bind_ok.1 h
          obtain ⟨name, -, h⟩ := bind_ok.1 h
          obtain ⟨description, -, h⟩ := bind_ok.1 h
          cases h
          obtain rfl : schema = some id := hid
          exact parseSchema_meets hderef hschema
    · cases h
  · cases h

namespace Operation

/-- The parameters that are left were read at places of the list. -/
theorem mem_mergeParameters {acc merged : List ((String × Location) × Parameter)}
    {params : List RawParameter} (h : (mergeParameters doc acc params).result = .ok merged)
    {e : (String × Location) × Parameter} (he : e ∈ merged) :
    e ∈ acc ∨ ∃ raw ∈ params, Parameter.parse doc raw.1 raw.2 = .ok (some e.2) := by
  induction params generalizing acc with
  | nil =>
    cases h
    exact .inl he
  | cons raw rest ih =>
    obtain ⟨parsed, hparsed, h⟩ := Traced.bind_ok.1 h
    have hrest : ∀ {acc}, (mergeParameters doc acc rest).result = .ok merged → e ∈ acc ∨
        ∃ other ∈ raw :: rest, Parameter.parse doc other.1 other.2 = .ok (some e.2) := fun h =>
      (ih h).imp_right fun ⟨other, hother, hparse⟩ => ⟨other, List.mem_cons_of_mem _ hother, hparse⟩
    cases parsed with
    | some p =>
      rcases hrest h with hin | hin
      · rcases Assoc.mem_insert hin with hin | ⟨-, heq⟩
        · exact .inl hin
        · exact .inr ⟨raw, List.mem_cons_self .., heq ▸ hparsed⟩
      · exact .inr hin
    | none =>
      obtain ⟨_, -, h⟩ := Traced.bind_ok.1 h
      exact hrest h

/-- The body that is given as a parameter was read at a place of the list. -/
theorem bodyParameter_meets {params : List RawParameter} {body : Body}
    (h : bodyParameter doc params = .ok body) (hid : body.schema = some id) :
    ∃ raw ∈ params, (SchemaPlaces.ofParameter doc raw.1 raw.2).Meets id := by
  induction params with
  | nil =>
    cases h
    cases hid
  | cons raw rest ih =>
    obtain ⟨⟨param, q⟩, hderef, h⟩ := bind_ok.1 h
    have hrest : bodyParameter doc rest = .ok body →
        ∃ other ∈ raw :: rest, (SchemaPlaces.ofParameter doc other.1 other.2).Meets id := fun h =>
      (ih h).imp fun _ hother => hother.imp_left (List.mem_cons_of_mem _)
    dsimp only at h
    split at h
    · split at h
      · next hbody =>
        cases h
        cases hid
        have hschema := (Bool.and_eq_true_iff.1 hbody).2
        refine ⟨raw, List.mem_cons_self .., .after_ok hderef ?_⟩
        exact .left (.left (.whenHeld (congrArg Except.ok hschema) (SchemaPlaces.schemaOf_meets _)))
      · exact hrest h
    · exact hrest h

end Operation

/-! ### Schemas of bodies and responses -/

namespace Document

/-- What a computation lists, or nothing if it fails. -/
def entriesIn (c : Checked Entries) : Entries := c.toOption.getD []

theorem mem_entriesIn {c : Checked Entries} {entries : Entries} (h : c = .ok entries)
    {e : Scalar × Value} (he : e ∈ entries) : e ∈ entriesIn c := by
  rw [h]
  exact he

/-- What stands behind the references of a value, if they lead anywhere. -/
def behind? (doc v : Value) : Option Value := (deref doc v "").toOption.map Prod.fst

/-- What stands behind references does not depend on where they start. -/
theorem behind?_eq_some {v w : Value} {q : String} (h : deref doc v pointer = .ok (w, q)) :
    behind? doc v = some w := by
  unfold behind? deref at *
  rw [follow] at h ⊢
  split at h
  · cases h
    rfl
  · rw [h]
    rfl
  · cases h

/-- The operations of a document. -/
def operations (doc : Value) : List Value :=
  (entriesIn (do (← paths doc).entries)).flatMap fun (_, raw) =>
    (behind? doc raw).toList.flatMap fun item =>
      (entriesIn item.entries).filterMap fun (key, operation) => (method? key).map fun _ => operation

/-- The request body and the responses of an operation. -/
def messages (doc operation : Value) : List Value :=
  let responses := entriesIn do (← operation.get "responses").orEmpty.entries
  ((operation.item (.str "requestBody")).toOption.toList ++ responses.map Prod.snd).filterMap
    (behind? doc)

/-- The media types of a body or response. -/
def mediaTypes (message : Value) : Entries := entriesIn do (← message.get "content").orEmpty.entries

/-- A body or response describes its media types by mappings, or not at all. -/
def MediaTyped (message : Value) : Prop :=
  ∀ e ∈ mediaTypes message, e.2.isMap = true ∨ e.2.isNull = true

instance (message : Value) : Decidable (MediaTyped message) :=
  inferInstanceAs (Decidable (∀ e ∈ mediaTypes message, _))

/-- All bodies and responses do. -/
def AllMediaTyped (doc : Value) : Prop :=
  ∀ operation ∈ operations doc, ∀ message ∈ messages doc operation, MediaTyped message

instance (doc : Value) : Decidable (AllMediaTyped doc) :=
  inferInstanceAs (Decidable (∀ operation ∈ operations doc, _))

end Document

/-- A media type that is described by a mapping has a schema for the walk if it has one for whoever
reads it. -/
theorem pickedMedia_meets {message : Value} {q name : String}
    (hderef : Document.deref doc raw pointer = .ok (message, q)) (htyped : Document.MediaTyped message)
    (hcontent : message.get "content" = .ok content)
    (h : mediaSchema content.orEmpty (.str name) q = .ok (some id)) :
    (SchemaPlaces.ofMessage doc raw pointer).Meets id := by
  obtain ⟨media, text, hmedia, hheld, htext, rfl⟩ := mediaSchema_ok h
  obtain ⟨entries, hentries, hmem⟩ := Value.item_str_ok hmedia
  have hentries : content.orEmpty.entries = .ok entries := by
    rw [hentries]
    rfl
  have hschema : SchemaPlaces.mediaHasSchema media = .ok true := by
    have hlisted : (do (← message.get "content").orEmpty.entries : Checked Entries) = .ok entries :=
      bind_ok.2 ⟨content, hcontent, hentries⟩
    -- a list or a text may hold the word, but the walk looks for it in mappings only
    have hall := htyped _ (Document.mem_entriesIn hlisted hmem)
    cases media with
    | map entries => exact hheld
    | list items => cases hall <;> contradiction
    | scalar s =>
      cases s with
      | null => cases hheld
      | _ => cases hall <;> contradiction
  refine .after_ok hderef (.left (.right (.after_ok hcontent ?_)))
  exact SchemaPlaces.mediaTypes_meets hentries hmem htext hschema

namespace Operation
open Document (MediaTyped messages)

variable {operation : Value}
  {path : Scalar} {method : String} {shared : List RawParameter} {op : Operation}
  {ops : List Operation} {names : List (String × Value)}

theorem mem_messages_body {body message : Value} {p q : String}
    (hbody : operation.item (.str "requestBody") = .ok body)
    (hderef : Document.deref doc body p = .ok (message, q)) : message ∈ messages doc operation := by
  refine List.mem_filterMap.2 ⟨body, List.mem_append_left _ ?_, Document.behind?_eq_some hderef⟩
  rw [hbody]
  exact List.mem_singleton_self _

theorem mem_messages_response {responses : Value} {entries : Entries} {e : Scalar × Value}
    {message : Value} {p q : String} (hresponses : operation.get "responses" = .ok responses)
    (hentries : responses.orEmpty.entries = .ok entries) (he : e ∈ entries)
    (hderef : Document.deref doc e.2 p = .ok (message, q)) : message ∈ messages doc operation := by
  refine List.mem_filterMap.2 ⟨e.2, List.mem_append_right _ ?_, Document.behind?_eq_some hderef⟩
  refine List.mem_map_of_mem (Document.mem_entriesIn ?_ he)
  exact bind_ok.2 ⟨responses, hresponses, hentries⟩

theorem parseBody_meets {body : Body}
    (htyped : ∀ message ∈ messages doc operation, MediaTyped message)
    (h : parseBody doc operation pointer = .ok body) (hid : body.schema = some id)
    (hheld : operation.has "requestBody" = .ok true) :
    (SchemaPlaces.ofOperation doc operation pointer).Meets id := by
  obtain ⟨raw, hraw, h⟩ := bind_ok.1 h
  obtain ⟨⟨request, q⟩, hderef, h⟩ := bind_ok.1 h
  obtain ⟨content, hcontent, h⟩ := bind_ok.1 h
  obtain ⟨contentType, -, h⟩ := bind_ok.1 h
  cases contentType with
  | none =>
    obtain ⟨schema, hschema, h⟩ := bind_ok.1 h
    obtain ⟨required, -, h⟩ := bind_ok.1 h
    cases hschema
    cases h
    cases hid
  | some name =>
    obtain ⟨schema, hschema, h⟩ := bind_ok.1 h
    obtain ⟨required, -, h⟩ := bind_ok.1 h
    cases h
    obtain rfl : schema = some id := hid
    refine .left (.right (.whenHeld hheld (.after_ok hraw ?_)))
    exact pickedMedia_meets hderef (htyped _ (mem_messages_body hraw hderef)) hcontent hschema

theorem parseResponse_meets {status : Scalar} {text : String} {r : Response}
    (htext : status.text = .ok text)
    (htyped : ∀ message q, Document.deref doc raw (Pointer.join pointer ["responses", text]) =
      .ok (message, q) → MediaTyped message)
    (h : parseResponse doc pointer status raw = .ok r) (hid : r.schema = some id) :
    (SchemaPlaces.ofMessage doc raw (Pointer.join pointer ["responses", text])).Meets id := by
  obtain ⟨_, heq, h⟩ := bind_ok.1 h
  cases htext.symm.trans heq
  obtain ⟨⟨response, q⟩, hderef, h⟩ := bind_ok.1 h
  obtain ⟨description, -, h⟩ := bind_ok.1 h
  obtain ⟨held, hheld, h⟩ := bind_ok.1 h
  split at h
  · next htrue =>
    cases h
    cases hid
    refine .after_ok hderef ?_
    exact .left (.left (.whenHeld (htrue ▸ hheld) (SchemaPlaces.schemaOf_meets _)))
  · obtain ⟨content, hcontent, h⟩ := bind_ok.1 h
    obtain ⟨contentType, -, h⟩ := bind_ok.1 h
    cases contentType with
    | none =>
      cases h
      cases hid
    | some name =>
      obtain ⟨schema, hschema, h⟩ := bind_ok.1 h
      cases h
      obtain rfl : schema = some id := hid
      exact pickedMedia_meets hderef (htyped _ _ hderef) hcontent hschema

theorem parseResponses_meets {responses : List Response} {r : Response}
    (htyped : ∀ message ∈ messages doc operation, MediaTyped message)
    (h : parseResponses doc operation pointer = .ok responses) (hr : r ∈ responses)
    (hid : r.schema = some id) : (SchemaPlaces.ofOperation doc operation pointer).Meets id := by
  obtain ⟨held, hheld, h⟩ := bind_ok.1 h
  obtain ⟨entries, hentries, h⟩ := bind_ok.1 h
  obtain ⟨⟨status, raw⟩, he, hparse⟩ := Outcome.exists_mem_of_forall₂ (mapM_ok.1 h).flip hr
  -- one side takes null for nothing and the other does not, but where an entry is, neither matters
  obtain rfl := Value.eq_map_of_orEmpty hentries he
  have hfound : (do (← operation.getD "responses" (.map [])).entries : Checked Entries) =
      .ok entries := bind_ok.2 ⟨_, Value.getD_of_get hheld nofun, rfl⟩
  refine .right (.after_ok hfound (.each he (.after fun text htext => ?_)))
  refine parseResponse_meets htext (fun message q hderef => ?_) hparse hid
  exact htyped _ (mem_messages_response hheld hentries he hderef)

/-! ### Schemas of operations -/

/-- The places of the schemas that an operation uses. -/
def schemas (op : Operation) : List String :=
  op.parameters.filterMap (·.schema) ++ op.body.toList ++ op.responses.filterMap (·.schema)

theorem listed_meets {holder : Value} {params : List RawParameter} {raw : RawParameter}
    (h : listed holder pointer = .ok params) (hraw : raw ∈ params)
    (hmeets : (SchemaPlaces.ofParameter doc raw.1 raw.2).Meets id) :
    (SchemaPlaces.ofParameters doc holder pointer).Meets id := by
  obtain ⟨held, hheld, h⟩ := bind_ok.1 h
  obtain ⟨items, hitems, h⟩ := bind_ok.1 h
  cases h
  obtain ⟨⟨v, i⟩, hv, rfl⟩ := List.mem_map.1 hraw
  have hitems : (do (← holder.getD "parameters" (.list [])).elements : Checked _) = .ok items :=
    bind_ok.2 ⟨held, hheld, hitems⟩
  exact .after_ok hitems (.each hv hmeets)

/-- A schema that the walk finds among those of an operation, or of the parameters of its path. -/
def MeetsBy (doc operation : Value) (pointer : String) (shared : List RawParameter) (id : String) : Prop :=
  (SchemaPlaces.ofOperation doc operation pointer).Meets id ∨
    ∃ raw ∈ shared, (SchemaPlaces.ofParameter doc raw.1 raw.2).Meets id

theorem meetsBy_of_listed {own : List RawParameter} (hown : listed operation pointer = .ok own)
    {raw : RawParameter} (hraw : raw ∈ shared ++ own)
    (hmeets : (SchemaPlaces.ofParameter doc raw.1 raw.2).Meets id) :
    MeetsBy doc operation pointer shared id := by
  rcases List.mem_append.1 hraw with hraw | hraw
  · exact .inr ⟨raw, hraw, hmeets⟩
  · exact .inl (.left (.left (listed_meets hown hraw hmeets)))

theorem parse_meets_parameter (h : (parse doc path method operation pointer shared).result = .ok op)
    (hid : id ∈ op.parameters.filterMap (·.schema)) : MeetsBy doc operation pointer shared id := by
  obtain ⟨own, merged, -, hown, hmerged, -, hparams, -⟩ := parse_ok h
  obtain ⟨p, hp, hid⟩ := List.mem_filterMap.1 hid
  rw [hparams] at hp
  obtain ⟨e, he, rfl⟩ := List.mem_map.1 hp
  obtain ⟨raw, hraw, hparse⟩ := (mem_mergeParameters hmerged he).resolve_left nofun
  exact meetsBy_of_listed hown hraw (Parameter.parse_meets hparse hid)

/-- What an operation uses is found among its own schemas or those of the parameters of its path. -/
theorem parse_meets (htyped : ∀ message ∈ messages doc operation, MediaTyped message)
    (h : (parse doc path method operation pointer shared).result = .ok op) (hid : id ∈ op.schemas) :
    MeetsBy doc operation pointer shared id := by
  rcases List.mem_append.1 hid with hid | hid
  · rcases List.mem_append.1 hid with hid | hid
    · exact parse_meets_parameter h hid
    · -- the body
      obtain ⟨own, -, body, hown, -, hbody, -, hop, -⟩ := parse_ok h
      rw [hop] at hid
      rcases hbody with ⟨hheld, hbody⟩ | hbody
      · exact .inl (parseBody_meets htyped hbody (Option.mem_toList.1 hid) hheld)
      · obtain ⟨raw, hraw, hmeets⟩ := bodyParameter_meets hbody (Option.mem_toList.1 hid)
        exact meetsBy_of_listed hown hraw hmeets
  · -- a response
    obtain ⟨-, -, -, -, -, -, -, -, hresponses, -⟩ := parse_ok h
    obtain ⟨r, hr, hid⟩ := List.mem_filterMap.1 hid
    exact .inl (parseResponses_meets htyped hresponses hr hid)

theorem parseItem_meets
    (hmeets : ∀ item entries, Document.behind? doc raw = some item → item.entries = .ok entries →
      ∀ e ∈ entries, (Document.method? e.1).isSome = true → ∀ method pointer shared,
        (parse doc path method e.2 pointer shared).result = .ok op → MeetsBy doc e.2 pointer shared id)
    (h : (parseItem doc path raw).result = .ok ops) (hop : op ∈ ops) :
    (SchemaPlaces.ofPathItem doc path raw).Meets id := by
  obtain ⟨text, item, q, shared, entries, htext, hderef, hshared, hentries, h⟩ := parseItem_ok h
  obtain ⟨⟨method, operation⟩, hmem, hparse⟩ := Outcome.exists_mem_of_forall₂ h.flip hop
  obtain ⟨⟨key, found⟩, he, hkey⟩ := List.mem_filterMap.1 hmem
  obtain ⟨found, hmethod, heq⟩ := Option.map_eq_some_iff.1 hkey
  cases heq
  have hfound : (do Document.deref doc raw (Pointer.child "#/paths" (← path.text)) : Checked _) =
      .ok (item, q) := bind_ok.2 ⟨text, htext, hderef⟩
  refine .after_ok hfound ?_
  have hall := hmeets item entries (Document.behind?_eq_some hderef) hentries _ he
    (Option.isSome_iff_exists.2 ⟨method, hmethod⟩)
  -- what the operation uses is its own, or it is shared by the operations of the path
  rcases hall _ _ _ hparse with hmeets | ⟨param, hparam, hmeets⟩
  · refine .right (.after_ok hentries (.each he ?_))
    dsimp only
    rw [hmethod]
    exact hmeets
  · exact .left (listed_meets hshared hparam hmeets)

/-- What is found among the schemas of its operation is found by the walk through the document. -/
theorem parseAll_meets_of
    (hmeets : ∀ operation ∈ Document.operations doc, ∀ path method pointer shared,
      (parse doc path method operation pointer shared).result = .ok op →
        MeetsBy doc operation pointer shared id) (h : (parseAll doc).result = .ok ops) (hop : op ∈ ops) :
    (SchemaPlaces.ofDocument doc names).Meets id := by
  obtain ⟨paths, entries, parsed, hpaths, hentries, hparsed, rfl⟩ := parseAll_ok h
  obtain ⟨ops, hops, hop⟩ := List.mem_flatten.1 hop
  obtain ⟨⟨path, raw⟩, he, hparse⟩ := Outcome.exists_mem_of_forall₂ hparsed.flip hops
  have hlisted : (do (← Document.paths doc).entries : Checked Entries) = .ok entries :=
    bind_ok.2 ⟨paths, hpaths, hentries⟩
  refine .right (.after_ok hlisted (.each he (parseItem_meets ?_ hparse hop)))
  intro item held hitem hheld e hin hmethod
  apply hmeets e.2
  -- the operation is one of those of the document
  obtain ⟨method, hmethod⟩ := Option.isSome_iff_exists.1 hmethod
  refine List.mem_flatMap.2 ⟨_, Document.mem_entriesIn hlisted he, ?_⟩
  refine List.mem_flatMap.2 ⟨item, Option.mem_toList.2 hitem, ?_⟩
  refine List.mem_filterMap.2 ⟨e, Document.mem_entriesIn hheld hin, ?_⟩
  exact Option.map_eq_some_iff.2 ⟨method, hmethod, rfl⟩

/-- Whatever operations use is found by the walk through the document. -/
theorem parseAll_meets (htyped : Document.AllMediaTyped doc) (h : (parseAll doc).result = .ok ops)
    (hop : op ∈ ops) (hid : id ∈ op.schemas) : (SchemaPlaces.ofDocument doc names).Meets id :=
  parseAll_meets_of (fun operation hin _ _ _ _ hparse => parse_meets (htyped operation hin) hparse hid)
    h hop

/-- The schemas of parameters are found whatever bodies and responses are like. -/
theorem parseAll_meets_parameter {p : Parameter} (h : (parseAll doc).result = .ok ops) (hop : op ∈ ops)
    (hp : p ∈ op.parameters) (hid : p.schema = some id) : (SchemaPlaces.ofDocument doc names).Meets id :=
  parseAll_meets_of (fun _ _ _ _ _ _ hparse =>
    parse_meets_parameter hparse (List.mem_filterMap.2 ⟨p, hp, hid⟩)) h hop

end Operation
end OpenApi
