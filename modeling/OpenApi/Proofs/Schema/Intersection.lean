import OpenApi.Proofs.Schema.Siblings

/-!
Compositions that are not merged since one of their schemas is a union or an intersection. The keywords
beside such a composition are not read: a property or a required name that stands there is found again
only if one of the composed schemas has it as well.
-/
namespace OpenApi

/-- Does a node have a property of this name? -/
def Node.HasProperty (n : Node) (name : Scalar) : Prop := ∃ q ∈ n.properties, q.name.same name = true

instance (n : Node) (name : Scalar) : Decidable (n.HasProperty name) :=
  inferInstanceAs (Decidable (∃ q ∈ n.properties, _))

/-- Is something so of a node, or of the schema behind one of its members? -/
def SchemaTable.Shows (table : SchemaTable) (n : Node) (has : Node → Prop) : Prop :=
  has n ∨ ∃ m ∈ n.members, ∃ c, table.concrete m = .ok c ∧ has c

namespace Resolve

variable {setting : Setting} {roots : List SchemaPlace} {a : Arena} {table : SchemaTable} {p : String}
  {v : Value} {raw : Entries} {n c : Node}

/-- The names of the properties that a schema lists. -/
def propertyNames (raw : Entries) : List Scalar := (listedProperties raw []).map Prod.fst

/-- The texts that stand under `required`. -/
def requiredNames (raw : Entries) : List String :=
  match found raw "required" with
  | .list items => items.filterMap Value.str?
  | _ => []

/-- The properties and the required names of a schema are found again in a node or its members. -/
structure Retains (table : SchemaTable) (n : Node) (raw : Entries) : Prop where
  properties : ∀ name ∈ propertyNames raw, table.Shows n fun c => c.HasProperty name
  required : ∀ name ∈ requiredNames raw, table.Shows n fun c => name ∈ c.required

/-- Among `schemas` is one that is merged into a fragment of this kind. -/
def SomeDenotes (doc : Value) (policy : MergePolicy) (schemas : List Value) (has : Fragment → Prop) :
    Prop :=
  ∃ w ∈ schemas, ∃ f, Denotes doc (rootPlaces doc) policy w f ∧ has f

/-- The properties and the required names of a schema are those of some of `schemas` as well. -/
structure RepeatedBy (doc : Value) (policy : MergePolicy) (schemas : List Value) (raw : Entries) :
    Prop where
  properties : ∀ name ∈ propertyNames raw,
    SomeDenotes doc policy schemas fun f => ∃ q ∈ f.properties, q.1.same name = true
  required : ∀ name ∈ requiredNames raw, SomeDenotes doc policy schemas fun f => name ∈ f.required

/-! ### Nodes that are not merged -/

/-- Unions and intersections have no properties of their own. -/
theorem Origin.fields_of_isComposed (h : Origin setting roots n) (hcomposed : n.isComposed = true) :
    n.properties = [] ∧ n.required = [] := by
  cases h with
  | tuple members hplace => exact ⟨rfl, rfl⟩
  | marker hs hraw href htarget => cases hcomposed
  | reference hs hraw href htarget => cases hcomposed
  | union hs hraw hshape members keyword discriminator => exact ⟨rfl, rfl⟩
  | intersection hs hraw hshape ht hf hleads hf' discriminator => exact ⟨rfl, rfl⟩
  | plain hs hraw hshape h =>
    cases h with
    | types hseveral members => exact ⟨rfl, rfl⟩
    | single hone h =>
      unfold Node.isComposed at hcomposed
      rcases h.kind with hk | hk | hk | hk <;> rw [hk] at hcomposed <;> cases hcomposed
  | merged hs hraw hshape hall hstored hleads hflat hbeside hpresent hmerged discriminator =>
    simp only [Node.isComposed, composed] at hcomposed
    rcases (Merge.merged_of_merge hmerged).kind with hk | hk | hk | hk <;> rw [hk] at hcomposed <;>
      cases hcomposed

/-- An intersection is made of a composition, and its members are the composed schemas. -/
theorem Origin.of_intersection (h : Origin setting roots n) (hkind : n.kind = .intersection) :
    ∃ w raw schemas, Reads setting.doc roots ⟨n.id, w⟩ ∧ schemaEntries? w = some raw ∧
      shape raw = .composition ∧ found raw "allOf" = .list schemas ∧
      n.members = (branchParts raw n.id "allOf").map (·.pointer) := by
  cases h with
  | intersection hs hraw hshape ht hf hleads hf' discriminator =>
    obtain ⟨schemas, hall, -⟩ := mem_branchParts ht
    exact ⟨_, _, schemas, hs, hraw, hshape, hall, rfl⟩
  | plain hs hraw hshape h =>
    cases h with
    | types hseveral members => cases hkind
    | single hone h => rcases h.kind with hk | hk | hk | hk <;> cases hk.symm.trans hkind
  | merged hs hraw hshape hall hstored hleads hflat hbeside hpresent hmerged discriminator =>
    rcases (Merge.merged_of_merge hmerged).kind with hk | hk | hk | hk <;> cases hk.symm.trans hkind
  | _ => cases hkind

theorem Completed.staysComposed_of_concrete (h : Completed setting a table)
    (hdoc : Unambiguous setting.doc (rootPlaces setting.doc)) (hc : table.concrete p = .ok c)
    (hcomposed : c.isComposed = true) (hv : Reads setting.doc (rootPlaces setting.doc) ⟨p, v⟩) :
    StaysComposed setting.doc (rootPlaces setting.doc) v := by
  obtain ⟨hleads, hmem⟩ := h.leadsTo_of_concrete hc
  exact hleads.staysComposed hdoc ((h.origin hmem).staysComposed hdoc hcomposed) v hv

/-! ### What is kept -/

/-- What the schemas behind the members of a node have is what the composed schemas denote. -/
theorem Completed.shows_iff (h : Completed setting a table)
    (hdoc : Unambiguous setting.doc (rootPlaces setting.doc))
    (hv : Reads setting.doc (rootPlaces setting.doc) ⟨p, v⟩) (hraw : schemaEntries? v = some raw)
    (hshape : shape raw = .composition) {schemas : List Value}
    (hall : found raw "allOf" = .list schemas) (hn : (p, n) ∈ table.nodes)
    (hmembers : n.members = (branchParts raw p "allOf").map (·.pointer)) {has : Node → Prop}
    {has' : Fragment → Prop} (hhas : ∀ c, has c ↔ has' c.fragment) (hself : ¬ has n)
    (hcomposed : ∀ c id, (id, c) ∈ table.nodes → c.isComposed = true → ¬ has c) :
    table.Shows n has ↔ SomeDenotes setting.doc setting.policy schemas has' := by
  constructor
  · rintro (hown | ⟨m, hm, c, hc, hhasc⟩)
    · exact absurd hown hself
    · rw [hmembers] at hm
      obtain ⟨part, hpart, rfl⟩ := List.mem_map.1 hm
      have hread := reads_branchParts hv hraw hshape hpart
      have hflat : c.isComposed = false := by
        rw [← Bool.not_eq_true]
        exact fun hcomp => hcomposed c _ (h.leadsTo_of_concrete hc).2 hcomp hhasc
      obtain ⟨schemas', hall', hmem⟩ := mem_branchParts hpart
      obtain rfl := Value.list.inj (hall.symm.trans hall')
      exact ⟨part.schema, hmem, c.fragment, h.denotes_of_concrete hdoc hc hflat hread,
        (hhas c).1 hhasc⟩
  · rintro ⟨w, hw, f, hf, hhasf⟩
    rw [← map_schema_listed (Pointer.child p "allOf") schemas, ← branchParts_eq hall] at hw
    obtain ⟨part, hpart, rfl⟩ := List.mem_map.1 hw
    have hread := reads_branchParts hv hraw hshape hpart
    have hm : part.pointer ∈ n.members := by
      rw [hmembers]
      exact List.mem_map_of_mem hpart
    obtain ⟨c, hc, -⟩ := h.followable.exists_concrete
      (h.closed.mentions hn _ (Node.member_mem_mentions hm))
    have hflat : c.isComposed = false := by
      rw [← Bool.not_eq_true]
      exact fun hcomp => hf.not_staysComposed (h.staysComposed_of_concrete hdoc hc hcomp hread)
    have hsame := hf.unique hdoc (h.denotes_of_concrete hdoc hc hflat hread)
    exact .inr ⟨part.pointer, hm, c, hc, (hhas c).2 (hsame ▸ hhasf)⟩

/-- An intersection has no properties and no required names of its own. What stands beside the composition
that it is made of is kept just if the composed schemas repeat it. -/
theorem retains_iff_repeatedBy {doc : Value} {policy : MergePolicy}
    (htable : SchemaTable.ofDocument doc policy = .ok table)
    (hdoc : Unambiguous doc (rootPlaces doc)) (hv : Reads doc (rootPlaces doc) ⟨p, v⟩)
    (hraw : schemaEntries? v = some raw) (hn : table.node p = .ok n) (hkind : n.kind = .intersection) :
    n.properties = [] ∧ n.required = [] ∧ ∃ schemas, found raw "allOf" = .list schemas ∧
      (Retains table n raw ↔ RepeatedBy doc policy schemas raw) := by
  obtain ⟨names, a, h⟩ := SchemaTable.ofDocument_ok htable
  have hmem := Assoc.mem_of_lookup (SchemaTable.node_ok_iff.1 hn)
  have hid := h.closed.id_eq hmem
  have horigin := h.origin hmem
  have hown := horigin.fields_of_isComposed (by simp [Node.isComposed, hkind])
  obtain ⟨w, raw', schemas, hw, hraw', hshape, hall, hmembers⟩ := horigin.of_intersection hkind
  rw [hid] at hw hmembers
  rw [hdoc.eq hw hv] at hraw'
  obtain rfl := Option.some.inj (hraw.symm.trans hraw')
  have hnone : ∀ c id, (id, c) ∈ table.nodes → c.isComposed = true →
      c.properties = [] ∧ c.required = [] :=
    fun c id hc hcomposed => (h.origin hc).fields_of_isComposed hcomposed
  have hproperty : ∀ name, table.Shows n (fun c => c.HasProperty name) ↔
      SomeDenotes doc policy schemas fun f => ∃ q ∈ f.properties, q.1.same name = true := by
    intro name
    refine h.shows_iff hdoc hv hraw hshape hall hmem hmembers (fun c => ?_) ?_ ?_
    · simp [Node.HasProperty, Node.fragment, Node.outline]
    · simp [Node.HasProperty, hown.1]
    · intro c id hc hcomposed
      simp [Node.HasProperty, (hnone c id hc hcomposed).1]
  have hrequired : ∀ name, table.Shows n (fun c => name ∈ c.required) ↔
      SomeDenotes doc policy schemas fun f => name ∈ f.required := by
    intro name
    refine h.shows_iff hdoc hv hraw hshape hall hmem hmembers (fun c => Iff.rfl) ?_ ?_
    · simp [hown.2]
    · intro c id hc hcomposed
      simp [(hnone c id hc hcomposed).2]
  refine ⟨hown.1, hown.2, schemas, hall, fun hkeeps => ?_, fun hrepeated => ?_⟩
  · exact ⟨fun name hname => (hproperty name).1 (hkeeps.properties name hname),
      fun name hname => (hrequired name).1 (hkeeps.required name hname)⟩
  · exact ⟨fun name hname => (hproperty name).2 (hrepeated.properties name hname),
      fun name hname => (hrequired name).2 (hrepeated.required name hname)⟩

/-- A composition of accounts and a union, with `beside` next to it. -/
def besideUnion (beside : Entries) : Entries :=
  (.str "allOf", .list (accountSchemas ++ [.record [
    ("oneOf", .list [.record [("type", .str "object")], .record [("type", .str "null")]])]])) :: beside

def account : Entries :=
  [(.str "required", .list [.str "id"]),
    (.str "properties", .record [("id", .record [("type", .str "integer")])])]

/-- A document that holds accounts and such a composition. -/
def memberDocument (beside : Entries) : Value :=
  .record [("components", .record [("schemas", .record [
    ("Account", .map account), ("Member", .map (besideUnion beside))])])]

/-- What stands beside the union is said by the account as well. -/
theorem account_retained : ∃ table n,
    SchemaTable.ofDocument (memberDocument account) .lastWins = .ok table ∧
      table.node "#/components/schemas/Member" = .ok n ∧ n.kind = .intersection ∧
      Retains table n (besideUnion account) := by
  have hmember : Reads (memberDocument account) (rootPlaces (memberDocument account))
      ⟨"#/components/schemas/Member", .map (besideUnion account)⟩ := .root (by decide +kernel)
  have haccount : Reads (memberDocument account) (rootPlaces (memberDocument account))
      ⟨"#/components/schemas/Account", .map account⟩ := .root (by decide +kernel)
  have hread : ∃ places, Covers (memberDocument account) (rootPlaces (memberDocument account)) places ∧
      OnceAmong places ∧ ApartAmong places :=
    ⟨readWithin (memberDocument account) 3 (rootPlaces (memberDocument account)), by decide +kernel⟩
  obtain ⟨places, hcovers, honce, hapart⟩ := hread
  have hok : ∃ table, SchemaTable.ofDocument (memberDocument account) .lastWins = .ok table ∧
      ∃ n ∈ (table.node "#/components/schemas/Member").toOption, n.kind = .intersection :=
    Outcome.exists_ok.2 (by decide +kernel)
  obtain ⟨table, htable, hn⟩ := hok
  obtain ⟨n, hn, hkind⟩ := Outcome.exists_ok.2 hn
  obtain ⟨-, -, schemas, hall, hiff⟩ := retains_iff_repeatedBy htable
    (hcovers.unambiguous honce hapart) hmember rfl hn hkind
  obtain rfl := Value.list.inj hall
  have hnormal : ∃ target, Pointer.normalize "#/components/schemas/Account" = .ok target ∧
      target = "#/components/schemas/Account" := Outcome.exists_ok.2 (by decide +kernel)
  obtain ⟨_, hnormal, rfl⟩ := hnormal
  have hdenotes : Denotes (memberDocument account) (rootPlaces (memberDocument account)) .lastWins
      (.record [("$ref", .str "#/components/schemas/Account")]) (plainFragment account) :=
    .reference rfl rfl hnormal haccount (.plain rfl rfl rfl)
  refine ⟨table, n, htable, hn, hkind, hiff.2 ⟨fun name hname => ?_, fun name hname => ?_⟩⟩
  · refine ⟨_, List.mem_cons_self, _, hdenotes, (name, true), ?_, Scalar.same_self name⟩
    revert name
    decide +kernel
  · refine ⟨_, List.mem_cons_self, _, hdenotes, ?_⟩
    revert name
    decide +kernel

/-- A required name that only stands beside the union. -/
def nickname : Entries :=
  [(.str "required", .list [.str "nickname"]),
    (.str "properties", .record [("nickname", .record [("type", .str "string")])])]

theorem nickname_lost :
    Reads (memberDocument nickname) (rootPlaces (memberDocument nickname))
        ⟨"#/components/schemas/Member", .map (besideUnion nickname)⟩ ∧
      ∃ table n, SchemaTable.ofDocument (memberDocument nickname) .lastWins = .ok table ∧
        table.node "#/components/schemas/Member" = .ok n ∧ n.kind = .intersection ∧
        ¬ Retains table n (besideUnion nickname) := by
  refine ⟨.root (by decide +kernel), ?_⟩
  have hok : ∃ table, SchemaTable.ofDocument (memberDocument nickname) .lastWins = .ok table ∧
      ∃ n ∈ (table.node "#/components/schemas/Member").toOption, n.kind = .intersection ∧
        ¬ n.HasProperty (.str "nickname") ∧
        ∀ m ∈ n.members, ∀ c ∈ (table.concrete m).toOption, ¬ c.HasProperty (.str "nickname") :=
    Outcome.exists_ok.2 (by decide +kernel)
  obtain ⟨table, htable, hn⟩ := hok
  obtain ⟨n, hn, hkind, hown, hmembers⟩ := Outcome.exists_ok.2 hn
  refine ⟨table, n, htable, hn, hkind, fun h => ?_⟩
  rcases h.properties (.str "nickname") (by decide +kernel) with hself | ⟨m, hm, c, hc, hhas⟩
  · exact hown hself
  · exact hmembers m hm c (by rw [hc]; rfl) hhas

end Resolve
end OpenApi
