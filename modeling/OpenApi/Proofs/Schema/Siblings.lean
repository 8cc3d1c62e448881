import OpenApi.Proofs.Schema.Denotation

/-!
Keywords beside a composition. They act as the first of the composed schemas if one of them is
structural. Otherwise they are left out of the merge, and this is noticed just when they set something
that none of the composed schemas sets again.
-/
namespace OpenApi.Resolve

variable {setting : Setting} {a : Arena} {table : SchemaTable} {p : String} {v : Value} {raw : Entries}
  {schemas : List Value} {fragments : List Fragment} {n c : Node}

/-! ### Nodes of a table -/

namespace Completed

theorem origin (h : Completed setting a table) {id : String} (hn : (id, n) ∈ table.nodes) :
    Origin setting (rootPlaces setting.doc) n :=
  h.sound.origin (h.nodes ▸ hn)

/-- The schema behind an id is where references lead from there. -/
theorem leadsTo_of_ends (h : Completed setting a table) {steps : Nat}
    (hends : table.Ends steps n c) (hn : (n.id, n) ∈ table.nodes) :
    LeadsTo setting.doc (rootPlaces setting.doc) n.id c ∧ (c.id, c) ∈ table.nodes := by
  induction hends with
  | here ht => exact ⟨⟨.refl, ht⟩, hn⟩
  | next ht hnext hends ih =>
    have hmem := h.closed.mem_of_node hnext
    obtain ⟨hleads, hc⟩ := ih hmem
    have hrefers := (h.origin hn).refers ht
    rw [← h.closed.id_eq (Assoc.mem_of_lookup (SchemaTable.node_ok_iff.1 hnext))] at hrefers
    exact ⟨⟨.head hrefers hleads.path, hleads.target⟩, hc⟩

theorem leadsTo_of_concrete (h : Completed setting a table) (hc : table.concrete p = .ok c) :
    LeadsTo setting.doc (rootPlaces setting.doc) p c ∧ (c.id, c) ∈ table.nodes := by
  obtain ⟨n, hn, hchase⟩ := Outcome.bind_ok.1 hc
  obtain ⟨steps, hends⟩ := SchemaTable.ends_of_chase hchase
  have hid := h.closed.id_eq (Assoc.mem_of_lookup (SchemaTable.node_ok_iff.1 hn))
  rw [← hid]
  exact h.leadsTo_of_ends hends (h.closed.mem_of_node hn)

theorem denotes_of_concrete (h : Completed setting a table)
    (hdoc : Unambiguous setting.doc (rootPlaces setting.doc)) (hc : table.concrete p = .ok c)
    (hflat : c.isComposed = false) (hv : Reads setting.doc (rootPlaces setting.doc) ⟨p, v⟩) :
    Denotes setting.doc (rootPlaces setting.doc) setting.policy v c.fragment := by
  obtain ⟨hleads, hmem⟩ := h.leadsTo_of_concrete hc
  have horigin := h.origin hmem
  exact (hleads.denotes hdoc (horigin.exists_reads hflat)
    (horigin.denotes hdoc hleads.target hflat)).2 v hv

/-- A composition whose members all denote fragments is merged. -/
theorem flat_of_members (h : Completed setting a table)
    (hdoc : Unambiguous setting.doc (rootPlaces setting.doc))
    (hv : Reads setting.doc (rootPlaces setting.doc) ⟨p, v⟩) (hraw : schemaEntries? v = some raw)
    (hshape : shape raw = .composition) (hall : found raw "allOf" = .list schemas)
    (hmembers : List.Forall₂ (Denotes setting.doc (rootPlaces setting.doc) setting.policy) schemas
      fragments)
    (hn : (p, n) ∈ table.nodes) : n.target = none ∧ n.isComposed = false := by
  have horigin := h.origin hn
  have hid := h.closed.id_eq hn
  constructor
  · -- a composition is no reference
    by_contra hsome
    obtain ⟨target, ht⟩ := Option.ne_none_iff_exists'.1 hsome
    obtain ⟨s, raw', ref, hs, hpointer, hraw', href, -⟩ := horigin.refers ht
    have hsame : s.schema = v := hdoc.once _ _ hs hv (hpointer.trans hid)
    rw [hsame] at hraw'
    obtain rfl := Option.some.inj (hraw.symm.trans hraw')
    cases hshape.symm.trans (shape_of_ref href)
  · -- nor does it stay one, since all of its members denote fragments
    rw [← Bool.not_eq_true]
    intro hcomposed
    rw [← hid] at hv
    obtain ⟨w, hw, hstays⟩ := (horigin.staysComposed hdoc hcomposed v hv).member hraw hshape hall
    obtain ⟨f, -, hf⟩ := Outcome.exists_mem_of_forall₂ hmembers hw
    exact hf.not_staysComposed hstays

/-- The node of a composition whose members all denote fragments is what these are merged into, with
the keywords beside the composition before them if they count. -/
theorem exists_merge (h : Completed setting a table)
    (hdoc : Unambiguous setting.doc (rootPlaces setting.doc))
    (hv : Reads setting.doc (rootPlaces setting.doc) ⟨p, v⟩) (hraw : schemaEntries? v = some raw)
    (hshape : shape raw = .composition) (hall : found raw "allOf" = .list schemas)
    (hmembers : List.Forall₂ (Denotes setting.doc (rootPlaces setting.doc) setting.policy) schemas
      fragments)
    (hn : table.node p = .ok n) :
    ∃ q ns m, ns.map Node.fragment = besideFragments raw ++ fragments ∧
      Merge.merge setting.policy q ns = .ok m ∧ n.outline = m.outline := by
  have hmem := Assoc.mem_of_lookup (SchemaTable.node_ok_iff.1 hn)
  obtain ⟨htarget, hflat⟩ := h.flat_of_members hdoc hv hraw hshape hall hmembers hmem
  rw [← h.closed.id_eq hmem] at hv
  obtain ⟨fragments', q, ns, m, hmembers', hns, hm, hfragment⟩ :=
    ((h.origin hmem).denotes hdoc htarget hflat v hv).merged_inv hraw hshape hall
  have hunique : Relator.RightUnique
      (Denotes setting.doc (rootPlaces setting.doc) setting.policy) :=
    fun _ _ _ hf hg => hf.unique hdoc hg
  rw [hunique.forall₂ hmembers' hmembers] at hns
  exact ⟨q, ns, m, hns, hm, congrArg Fragment.toOutline hfragment⟩

end Completed

/-! ### Keywords moved into a composition -/

/-- The composition alone, with the keywords that stand beside it as the first of its schemas. -/
def movedIn (raw : Entries) (schemas : List Value) : Entries :=
  [(.str "allOf", .list (.map (raw.without ["allOf"]) :: schemas))]

theorem shape_movedIn (raw : Entries) (schemas : List Value) :
    shape (movedIn raw schemas) = .composition := rfl

theorem found_movedIn (raw : Entries) (schemas : List Value) :
    found (movedIn raw schemas) "allOf" = .list (.map (raw.without ["allOf"]) :: schemas) := rfl

theorem besideFragments_movedIn (raw : Entries) (schemas : List Value) :
    besideFragments (movedIn raw schemas) = [] := rfl

/-- At `p` a document holds a composition of `schemas` with further keywords beside it, and at `q` a
document holds the composition with these keywords moved in. They do not refer or compose and do not
state several types. What `schemas` depend on is the same in the two documents, which may be one. -/
structure MovesIn (doc doc' : Value) (p q : String) (raw : Entries) (schemas : List Value) : Prop where
  all : raw.get? "allOf" = some (.list schemas)
  plain : shape (raw.without ["allOf"]) = .plain
  single : severalTypes (raw.without ["allOf"]) = false
  beside : Reads doc (rootPlaces doc) ⟨p, .map raw⟩
  inside : Reads doc' (rootPlaces doc') ⟨q, .map (movedIn raw schemas)⟩
  same : ∀ v ∈ schemas, ∀ place, DependsOn doc (rootPlaces doc) v place →
    ∀ w, Reads doc (rootPlaces doc) ⟨place, w⟩ → Reads doc' (rootPlaces doc') ⟨place, w⟩

theorem MovesIn.shape_eq {doc doc' : Value} {q : String} (h : MovesIn doc doc' p q raw schemas) :
    shape raw = .composition := by
  have href := (shape_eq_plain_iff.1 h.plain).1
  rw [Entries.has, Entries.get?_without (by decide)] at href
  exact shape_eq_composition_iff.2 ⟨href, by simp [Entries.has, h.all]⟩

/-- Merging with the keywords beside a composition as a fragment, and without. -/
theorem outline_eq_iff {policy : MergePolicy} {q : String} {ns ms : List Node} {n m : Node}
    (hfragments : ∀ f ∈ fragments, f.default.isSome = true → f.declares .default = true)
    (hns : ns.map Node.fragment = besideFragments raw ++ fragments)
    (hms : ms.map Node.fragment = plainFragment (raw.without ["allOf"]) :: fragments)
    (hn : Merge.merge policy p ns = .ok n) (hm : Merge.merge policy q ms = .ok m) :
    n.outline = m.outline ↔ isStructural (raw.without ["allOf"]) = true ∨
      (plainFragment (raw.without ["allOf"])).Repeated fragments := by
  unfold besideFragments at hns
  by_cases hstructural : isStructural (raw.without ["allOf"]) = true
  · -- the same fragments are merged
    rw [if_pos hstructural] at hns
    have hsame : ns.map Node.fragment = ms.map Node.fragment := hns.trans hms.symm
    exact iff_of_true (congrArg Fragment.toOutline (Merge.fragment_eq_of_merge hsame hn hm))
      (.inl hstructural)
  · rw [if_neg hstructural, List.nil_append] at hns
    have hfalse := Bool.not_eq_true _ ▸ hstructural
    obtain ⟨x, rest, rfl, hx, hrest⟩ := List.map_eq_cons_iff.1 hms
    have hdefault : ∀ k ∈ ns, k.default.isSome = true → Merge.declares .default k = true := by
      intro k hk
      apply hfragments k.fragment
      rw [← hns]
      exact List.mem_map_of_mem hk
    rw [or_iff_right hstructural, ← hns, ← hx]
    apply Merge.outline_eq_iff_repeated _ _ hdefault (hrest.trans hns.symm) hm hn
    · rw [hx]
      exact bare_plainFragment hfalse
    · rw [hx]
      exact explicit_plainFragment hfalse

/-- Keywords beside a composition act as the first of the composed schemas just when one of them is
structural, or the composed schemas set again whatever they set. -/
theorem outline_movedIn_iff {doc doc' : Value} {policy : MergePolicy} {table table' : SchemaTable}
    (htable : SchemaTable.ofDocument doc policy = .ok table)
    (htable' : SchemaTable.ofDocument doc' policy = .ok table')
    (hdoc : Unambiguous doc (rootPlaces doc)) (hdoc' : Unambiguous doc' (rootPlaces doc'))
    {p q : String} {raw : Entries} {schemas : List Value} (h : MovesIn doc doc' p q raw schemas)
    {concretes : List Node}
    (hconcretes : (branchParts raw p "allOf").mapM (fun part => table.concrete part.pointer) =
      .ok concretes)
    (hflat : ∀ c ∈ concretes, c.kind ≠ .union ∧ c.kind ≠ .intersection)
    {n n' : Node} (hn : table.node p = .ok n) (hn' : table'.node q = .ok n') :
    n.outline = n'.outline ↔ isStructural (raw.without ["allOf"]) = true ∨
      (plainFragment (raw.without ["allOf"])).Repeated (concretes.map Node.fragment) := by
  obtain ⟨names, a, hcompleted⟩ := SchemaTable.ofDocument_ok htable
  obtain ⟨names', a', hcompleted'⟩ := SchemaTable.ofDocument_ok htable'
  have hshape := h.shape_eq
  have hall : found raw "allOf" = .list schemas := by rw [found, h.all, Option.getD_some]
  -- what the members come to
  have hmembers : List.Forall₂ (Denotes doc (rootPlaces doc) policy) schemas
      (concretes.map Node.fragment) := by
    rw [← map_schema_listed (Pointer.child p "allOf") schemas, ← branchParts_eq hall,
      List.forall₂_map_left_iff, List.forall₂_map_right_iff]
    refine forall₂_imp_mem (Outcome.mapM_ok.1 hconcretes) fun part hpart c hc hconcrete => ?_
    have hread := reads_branchParts h.beside rfl hshape hpart
    refine hcompleted.denotes_of_concrete hdoc hconcrete ?_ hread
    simpa [Node.isComposed] using hflat c hc
  have hmembers' : List.Forall₂ (Denotes doc' (rootPlaces doc') policy)
      (.map (raw.without ["allOf"]) :: schemas)
      (plainFragment (raw.without ["allOf"]) :: concretes.map Node.fragment) :=
    .cons (.plain rfl h.plain h.single)
      (forall₂_imp_mem hmembers fun v hv f _ hf => hf.transport (h.same v hv))
  have hdefault : ∀ f ∈ concretes.map Node.fragment,
      f.default.isSome = true → f.declares .default = true :=
    Outcome.forall_mem_of_forall₂ (hmembers.imp fun _ _ hf => hf.declares_default)
  -- the two merges
  obtain ⟨r, ns, m, hns, hm, hnm⟩ := hcompleted.exists_merge hdoc h.beside rfl hshape hall hmembers hn
  obtain ⟨r', ns', m', hns', hm', hnm'⟩ := hcompleted'.exists_merge hdoc' h.inside rfl
    (shape_movedIn raw schemas) (found_movedIn raw schemas) hmembers' hn'
  rw [besideFragments_movedIn, List.nil_append] at hns'
  rw [hnm, hnm']
  exact outline_eq_iff hdefault hns hns' hm hm'

/-- A document that holds a composition in both forms, and a schema to refer to. -/
def bothForms (raw : Entries) (schemas : List Value) : Value :=
  .record [("components", .record [("schemas", .record [
    ("Account", .record [
      ("required", .list [.str "id"]),
      ("properties", .record [("id", .record [("type", .str "integer")])])]),
    ("Beside", .map raw),
    ("Inside", .map (movedIn raw schemas))])])]

def accountSchemas : List Value := [.record [("$ref", .str "#/components/schemas/Account")]]

/-- An account that has a name as well. -/
def named : Entries :=
  [(.str "allOf", .list accountSchemas),
    (.str "required", .list [.str "name"]),
    (.str "properties", .record [("name", .record [("type", .str "string")])]),
    (.str "deprecated", .bool true)]

def namedForms : Value := bothForms named accountSchemas

theorem named_outline : ∃ table n n',
    SchemaTable.ofDocument namedForms .strictestWins = .ok table ∧
      table.node "#/components/schemas/Beside" = .ok n ∧
      table.node "#/components/schemas/Inside" = .ok n' ∧
      n.properties.length = 2 ∧ n.outline = n'.outline := by
  have hmoves : MovesIn namedForms namedForms "#/components/schemas/Beside"
      "#/components/schemas/Inside" named accountSchemas :=
    ⟨rfl, rfl, rfl, .root (by decide +kernel), .root (by decide +kernel), fun _ _ _ _ _ hw => hw⟩
  have hread : ∃ places, Covers namedForms (rootPlaces namedForms) places ∧ OnceAmong places ∧
      ApartAmong places :=
    ⟨readWithin namedForms 2 (rootPlaces namedForms), by decide +kernel⟩
  obtain ⟨places, hcovers, honce, hapart⟩ := hread
  have hdoc := hcovers.unambiguous honce hapart
  have hok : ∃ table, SchemaTable.ofDocument namedForms .strictestWins = .ok table ∧
      (∃ concretes ∈ ((branchParts named "#/components/schemas/Beside" "allOf").mapM
        fun part => table.concrete part.pointer).toOption,
          ∀ c ∈ concretes, c.kind ≠ .union ∧ c.kind ≠ .intersection) ∧
      (∃ n ∈ (table.node "#/components/schemas/Beside").toOption, n.properties.length = 2) ∧
      ∃ n ∈ (table.node "#/components/schemas/Inside").toOption, n.properties.length = 2 :=
    Outcome.exists_ok.2 (by decide +kernel)
  obtain ⟨table, htable, hconcretes, hn, hn'⟩ := hok
  obtain ⟨concretes, hconcretes, hflat⟩ := Outcome.exists_ok.2 hconcretes
  obtain ⟨n, hn, hlength⟩ := Outcome.exists_ok.2 hn
  obtain ⟨n', hn', -⟩ := Outcome.exists_ok.2 hn'
  have hiff := outline_movedIn_iff htable htable hdoc hdoc hmoves hconcretes hflat hn hn'
  exact ⟨table, n, n', htable, hn, hn', hlength, hiff.2 (.inl rfl)⟩

def textSchemas : List Value := [.record [("type", .str "string")]]

/-- A text that may be null, by a keyword that is not structural. -/
def textOrNull : Entries := [(.str "nullable", .bool true), (.str "allOf", .list textSchemas)]

def textForms : Value := bothForms textOrNull textSchemas

/-- Beside the composition the keyword is lost. -/
theorem textOrNull_outline :
    MovesIn textForms textForms "#/components/schemas/Beside" "#/components/schemas/Inside" textOrNull
        textSchemas ∧
      ∃ table c n n', SchemaTable.ofDocument textForms .lastWins = .ok table ∧
        table.concrete "#/components/schemas/Beside/allOf/0" = .ok c ∧ c.kind = .primitive ∧
        table.node "#/components/schemas/Beside" = .ok n ∧
        table.node "#/components/schemas/Inside" = .ok n' ∧ n.outline ≠ n'.outline := by
  refine ⟨⟨rfl, rfl, rfl, .root (by decide +kernel), .root (by decide +kernel),
    fun _ _ _ _ _ hw => hw⟩, ?_⟩
  have hok : ∃ table, SchemaTable.ofDocument textForms .lastWins = .ok table ∧
      (∃ c ∈ (table.concrete "#/components/schemas/Beside/allOf/0").toOption, c.kind = .primitive) ∧
      (∃ n ∈ (table.node "#/components/schemas/Beside").toOption, n.outline.nullable = false) ∧
      ∃ n ∈ (table.node "#/components/schemas/Inside").toOption, n.outline.nullable = true :=
    Outcome.exists_ok.2 (by decide +kernel)
  obtain ⟨table, htable, hc, hn, hn'⟩ := hok
  obtain ⟨c, hc, hkind⟩ := Outcome.exists_ok.2 hc
  obtain ⟨n, hn, hnullable⟩ := Outcome.exists_ok.2 hn
  obtain ⟨n', hn', hnullable'⟩ := Outcome.exists_ok.2 hn'
  refine ⟨table, c, n, n', htable, hc, hkind, hn, hn', fun heq => ?_⟩
  rw [heq, hnullable'] at hnullable
  cases hnullable

end OpenApi.Resolve
