import OpenApi.Proofs.Schema.Chains

/-!
What a schema comes to behind its references, read off the document alone. Where a document reads every
place in one way, this is what the table holds: the fragment of a node is the one that the schema at its
place denotes, and a node is a union or an intersection just if that schema denotes none.
-/
namespace OpenApi

/-- The fragment that spells out more. -/
def Fragment.declaring (f : Fragment) (more : List Attribute) : Fragment :=
  { f with declared := Attribute.all.filter fun a => f.declared.contains a || more.contains a }

namespace Resolve

variable {doc : Value} {roots : List SchemaPlace} {policy : MergePolicy} {v : Value} {raw : Entries}

/-- The keywords beside a composition, if they count as a fragment of it. -/
def besideFragments (raw : Entries) : List Fragment :=
  if isStructural (raw.without ["allOf"]) then [plainFragment (raw.without ["allOf"])] else []

/-- The fragment that a schema comes to behind its references, where that is neither a union nor an
intersection. -/
inductive Denotes (doc : Value) (roots : List SchemaPlace) (policy : MergePolicy) :
    Value → Fragment → Prop
  | reference {v w : Value} {raw : Entries} {ref target : String} {f : Fragment}
      (hraw : schemaEntries? v = some raw) (href : raw.get? "$ref" = some (.str ref))
      (htarget : Pointer.normalize ref = .ok target) (hw : Reads doc roots ⟨target, w⟩)
      (h : Denotes doc roots policy w f) : Denotes doc roots policy v f
  | plain {v : Value} {raw : Entries} (hraw : schemaEntries? v = some raw)
      (hshape : shape raw = .plain) (hone : severalTypes raw = false) :
      Denotes doc roots policy v (plainFragment raw)
  | merged {v : Value} {raw : Entries} {members : List (Value × Fragment)} {p : String}
      {ns : List Node} {merged : Node} (hraw : schemaEntries? v = some raw)
      (hshape : shape raw = .composition)
      (hall : found raw "allOf" = .list (members.map Prod.fst))
      (hmembers : ∀ m ∈ members, Denotes doc roots policy m.1 m.2)
      (hns : ns.map Node.fragment = besideFragments raw ++ members.map Prod.snd)
      (hmerged : Merge.merge policy p ns = .ok merged) :
      Denotes doc roots policy v (merged.fragment.declaring (declared raw))

/-- A schema that comes to a union or an intersection, or to listed items, behind its references. -/
inductive StaysComposed (doc : Value) (roots : List SchemaPlace) : Value → Prop
  | reference {v : Value} {raw : Entries} {ref target : String}
      (hraw : schemaEntries? v = some raw) (href : raw.get? "$ref" = some (.str ref))
      (htarget : Pointer.normalize ref = .ok target)
      (h : ∀ w, Reads doc roots ⟨target, w⟩ → StaysComposed doc roots w) : StaysComposed doc roots v
  | listed {v : Value} (hraw : schemaEntries? v = none) : StaysComposed doc roots v
  | union {v : Value} {raw : Entries} (hraw : schemaEntries? v = some raw)
      (hshape : shape raw = .union) : StaysComposed doc roots v
  | types {v : Value} {raw : Entries} (hraw : schemaEntries? v = some raw)
      (hshape : shape raw = .plain) (hseveral : severalTypes raw = true) : StaysComposed doc roots v
  | intersection {v w : Value} {raw : Entries} {schemas : List Value}
      (hraw : schemaEntries? v = some raw) (hshape : shape raw = .composition)
      (hall : found raw "allOf" = .list schemas) (hw : w ∈ schemas) (h : StaysComposed doc roots w) :
      StaysComposed doc roots v

/-- The places that decide what a schema comes to: those it refers to, and those that what stands there
or the parts of a composition depend on in turn. -/
inductive DependsOn (doc : Value) (roots : List SchemaPlace) : Value → String → Prop
  | target {v : Value} {raw : Entries} {ref target : String} (hraw : schemaEntries? v = some raw)
      (href : raw.get? "$ref" = some (.str ref)) (htarget : Pointer.normalize ref = .ok target) :
      DependsOn doc roots v target
  | behind {v w : Value} {raw : Entries} {ref target place : String}
      (hraw : schemaEntries? v = some raw) (href : raw.get? "$ref" = some (.str ref))
      (htarget : Pointer.normalize ref = .ok target) (hw : Reads doc roots ⟨target, w⟩)
      (h : DependsOn doc roots w place) : DependsOn doc roots v place
  | member {v w : Value} {raw : Entries} {schemas : List Value} {place : String}
      (hraw : schemaEntries? v = some raw) (hshape : shape raw = .composition)
      (hall : found raw "allOf" = .list schemas) (hw : w ∈ schemas)
      (h : DependsOn doc roots w place) : DependsOn doc roots v place

/-- Every place is read in one way, and listed items keep their places to themselves. -/
structure Unambiguous (doc : Value) (roots : List SchemaPlace) : Prop where
  once : ∀ s t, Reads doc roots s → Reads doc roots t → s.pointer = t.pointer → s.schema = t.schema
  tuples : TuplesApart doc roots

theorem Unambiguous.eq (hdoc : Unambiguous doc roots) {p : String} {v w : Value}
    (hv : Reads doc roots ⟨p, v⟩) (hw : Reads doc roots ⟨p, w⟩) : v = w :=
  hdoc.once _ _ hv hw rfl

/-- Every place is read in one way among `places`. -/
def OnceAmong (places : List SchemaPlace) : Prop :=
  ∀ s ∈ places, ∀ t ∈ places, s.pointer = t.pointer → s.schema = t.schema

instance (places : List SchemaPlace) : Decidable (OnceAmong places) :=
  inferInstanceAs (Decidable (∀ s ∈ places, _))

theorem Covers.unambiguous {places : List SchemaPlace} (h : Covers doc roots places)
    (honce : OnceAmong places) (hapart : ApartAmong places) : Unambiguous doc roots where
  once s t hs ht := honce s (h.mem hs) t (h.mem ht)
  tuples := h.tuplesApart hapart

theorem shape_of_ref {raw : Entries} {ref : Value} (h : raw.get? "$ref" = some ref) :
    shape raw = .reference := by
  simp [shape, Entries.has, h]

theorem eq_of_mem_besideFragments {f : Fragment} (h : f ∈ besideFragments raw) :
    f = plainFragment (raw.without ["allOf"]) := by
  unfold besideFragments at h
  split at h
  · exact List.mem_singleton.1 h
  · cases h

/-- A schema has one shape. -/
theorem shape_unique {raw' : Entries} {sh sh' : Shape} (hraw : schemaEntries? v = some raw)
    (hraw' : schemaEntries? v = some raw') (h : shape raw = sh) (h' : shape raw' = sh') : sh = sh' := by
  obtain rfl := Option.some.inj (hraw.symm.trans hraw')
  exact h.symm.trans h'

/-! ### What a schema denotes -/

theorem forall₂_imp_mem {α β : Type} {R S : α → β → Prop} {xs : List α} {ys : List β}
    (h : List.Forall₂ R xs ys) (himp : ∀ x ∈ xs, ∀ y ∈ ys, R x y → S x y) : List.Forall₂ S xs ys := by
  refine List.forall₂_iff_zip.2 ⟨h.length_eq, fun {x y} hmem => ?_⟩
  obtain ⟨hx, hy⟩ := List.of_mem_zip hmem
  exact himp x hx y hy (List.forall₂_zip h hmem)

namespace Denotes
variable {f g : Fragment}

theorem reference_inv {ref target : String} (h : Denotes doc roots policy v f)
    (hraw : schemaEntries? v = some raw) (href : raw.get? "$ref" = some (.str ref))
    (htarget : Pointer.normalize ref = .ok target) :
    ∃ w, Reads doc roots ⟨target, w⟩ ∧ Denotes doc roots policy w f := by
  have hshape := shape_of_ref href
  cases h with
  | @reference _ w _ _ _ _ hraw' href' htarget' hw h =>
    obtain rfl := Option.some.inj (hraw.symm.trans hraw')
    cases Option.some.inj (href.symm.trans href')
    obtain rfl := Except.ok.inj (htarget.symm.trans htarget')
    exact ⟨w, hw, h⟩
  | plain hraw' hshape' hone => cases shape_unique hraw hraw' hshape hshape'
  | merged hraw' hshape' hall hmembers hns hmerged => cases shape_unique hraw hraw' hshape hshape'

theorem plain_inv (h : Denotes doc roots policy v f) (hraw : schemaEntries? v = some raw)
    (hshape : shape raw = .plain) : f = plainFragment raw ∧ severalTypes raw = false := by
  cases h with
  | reference hraw' href' htarget' hw h => cases shape_unique hraw hraw' hshape (shape_of_ref href')
  | plain hraw' hshape' hone =>
    obtain rfl := Option.some.inj (hraw.symm.trans hraw')
    exact ⟨rfl, hone⟩
  | merged hraw' hshape' hall hmembers hns hmerged => cases shape_unique hraw hraw' hshape hshape'

theorem merged_inv {schemas : List Value} (h : Denotes doc roots policy v f)
    (hraw : schemaEntries? v = some raw) (hshape : shape raw = .composition)
    (hall : found raw "allOf" = .list schemas) :
    ∃ (fragments : List Fragment) (p : String) (ns : List Node) (merged : Node),
      List.Forall₂ (Denotes doc roots policy) schemas fragments ∧
      ns.map Node.fragment = besideFragments raw ++ fragments ∧
      Merge.merge policy p ns = .ok merged ∧ f = merged.fragment.declaring (declared raw) := by
  cases h with
  | reference hraw' href' htarget' hw h => cases shape_unique hraw hraw' hshape (shape_of_ref href')
  | plain hraw' hshape' hone => cases shape_unique hraw hraw' hshape hshape'
  | @merged _ _ members p ns merged hraw' hshape' hall' hmembers hns hmerged =>
    obtain rfl := Option.some.inj (hraw.symm.trans hraw')
    obtain rfl := Value.list.inj (hall.symm.trans hall')
    refine ⟨_, p, ns, merged, ?_, hns, hmerged, rfl⟩
    rw [List.forall₂_map_left_iff, List.forall₂_map_right_iff, List.forall₂_same]
    exact hmembers

/-- The document decides what a schema denotes. -/
theorem unique (hdoc : Unambiguous doc roots) (hf : Denotes doc roots policy v f)
    (hg : Denotes doc roots policy v g) : f = g := by
  induction hf generalizing g with
  | reference hraw href htarget hw h ih =>
    obtain ⟨w, hw', hg⟩ := hg.reference_inv hraw href htarget
    rw [hdoc.eq hw' hw] at hg
    exact ih hg
  | plain hraw hshape hone => exact (hg.plain_inv hraw hshape).1.symm
  | @merged v raw members p ns merged hraw hshape hall hmembers hns hmerged ih =>
    obtain ⟨fragments, p', ns', merged', hmembers', hns', hmerged', rfl⟩ :=
      hg.merged_inv hraw hshape hall
    have hsame : members.map Prod.snd = fragments := by
      rw [List.forall₂_map_left_iff] at hmembers'
      rw [← List.forall₂_eq_eq_eq, List.forall₂_map_left_iff]
      exact forall₂_imp_mem hmembers' fun m hm g _ hg => ih m hm hg
    rw [hsame, ← hns'] at hns
    rw [Merge.fragment_eq_of_merge hns hmerged hmerged']

theorem exists_raw (h : Denotes doc roots policy v f) :
    ∃ raw, schemaEntries? v = some raw ∧ shape raw ≠ .union := by
  cases h with
  | reference hraw href htarget hw h =>
    refine ⟨_, hraw, ?_⟩
    rw [shape_of_ref href]
    exact nofun
  | plain hraw hshape hone =>
    refine ⟨_, hraw, ?_⟩
    rw [hshape]
    exact nofun
  | merged hraw hshape hall hmembers hns hmerged =>
    refine ⟨_, hraw, ?_⟩
    rw [hshape]
    exact nofun

theorem not_staysComposed (h : Denotes doc roots policy v f) : ¬ StaysComposed doc roots v := by
  intro hc
  induction hc generalizing f with
  | reference hraw href htarget hw ih =>
    obtain ⟨w, hw', h⟩ := h.reference_inv hraw href htarget
    exact ih w hw' h
  | listed hnone =>
    obtain ⟨raw, hraw, -⟩ := h.exists_raw
    cases hnone.symm.trans hraw
  | union hraw hshape =>
    obtain ⟨raw, hraw', hne⟩ := h.exists_raw
    obtain rfl := Option.some.inj (hraw.symm.trans hraw')
    exact hne hshape
  | types hraw hshape hseveral =>
    have hone := (h.plain_inv hraw hshape).2
    rw [hseveral] at hone
    cases hone
  | intersection hraw hshape hall hw hc ih =>
    obtain ⟨fragments, p, ns, merged, hmembers, -, -, -⟩ := h.merged_inv hraw hshape hall
    obtain ⟨f, -, hf⟩ := Outcome.exists_mem_of_forall₂ hmembers hw
    exact ih hf

/-- What a schema denotes depends only on the places that decide it. -/
theorem transport {doc' : Value} {roots' : List SchemaPlace} (h : Denotes doc roots policy v f)
    (hsame : ∀ p, DependsOn doc roots v p → ∀ w, Reads doc roots ⟨p, w⟩ → Reads doc' roots' ⟨p, w⟩) :
    Denotes doc' roots' policy v f := by
  induction h with
  | reference hraw href htarget hw h ih =>
    apply Denotes.reference hraw href htarget (hsame _ (.target hraw href htarget) _ hw)
    exact ih fun p hp => hsame p (.behind hraw href htarget hw hp)
  | plain hraw hshape hone => exact .plain hraw hshape hone
  | merged hraw hshape hall hmembers hns hmerged ih =>
    apply Denotes.merged hraw hshape hall _ hns hmerged
    intro m hm
    apply ih m hm
    exact fun p hp => hsame p (.member hraw hshape hall (List.mem_map_of_mem hm) hp)

/-- A default comes with being spelled out. -/
theorem declares_default (h : Denotes doc roots policy v f) (hdefault : f.default.isSome = true) :
    f.declares .default = true := by
  induction h with
  | reference hraw href htarget hw h ih => exact ih hdefault
  | plain hraw hshape hone => exact declares_default_plainFragment hdefault
  | @merged v raw members p ns merged hraw hshape hall hmembers hns hmerged ih =>
    -- a default of the whole is a default of a part
    have hfragment : ∀ f ∈ besideFragments raw ++ members.map Prod.snd,
        f.default.isSome = true → f.declares .default = true := by
      intro f hf hsome
      rcases List.mem_append.1 hf with hf | hf
      · rw [eq_of_mem_besideFragments hf] at hsome ⊢
        exact declares_default_plainFragment hsome
      · obtain ⟨m, hm, rfl⟩ := List.mem_map.1 hf
        exact ih m hm hsome
    rw [← hns, List.forall_mem_map] at hfragment
    have hcontains := Merge.declares_default_of_merge hmerged hfragment hdefault
    have hmem : .default ∈ (merged.fragment.declaring (declared raw)).declared :=
      List.mem_filter.2 ⟨by decide, Bool.or_eq_true_iff.2 (.inl hcontains)⟩
    rw [Fragment.declares, List.contains_iff_mem.2 hmem, Bool.true_or]

end Denotes

/-- A composition stays one only because of a member that does. -/
theorem StaysComposed.member {schemas : List Value} (h : StaysComposed doc roots v)
    (hraw : schemaEntries? v = some raw) (hshape : shape raw = .composition)
    (hall : found raw "allOf" = .list schemas) : ∃ w ∈ schemas, StaysComposed doc roots w := by
  cases h with
  | reference hraw' href htarget hw => cases shape_unique hraw hraw' hshape (shape_of_ref href)
  | listed hnone => cases hnone.symm.trans hraw
  | union hraw' hshape' => cases shape_unique hraw hraw' hshape hshape'
  | types hraw' hshape' hseveral => cases shape_unique hraw hraw' hshape hshape'
  | @intersection _ w _ _ hraw' hshape' hall' hw hc =>
    obtain rfl := Option.some.inj (hraw.symm.trans hraw')
    obtain rfl := Value.list.inj (hall.symm.trans hall')
    exact ⟨w, hw, hc⟩

/-! ### Where references lead -/

section
variable {n : Node} {p : String}

theorem LeadsTo.denotes (hdoc : Unambiguous doc roots) {f : Fragment} (h : LeadsTo doc roots p n)
    (hread : ∃ w, Reads doc roots ⟨n.id, w⟩)
    (hn : ∀ w, Reads doc roots ⟨n.id, w⟩ → Denotes doc roots policy w f) :
    (∃ w, Reads doc roots ⟨p, w⟩) ∧ ∀ w, Reads doc roots ⟨p, w⟩ → Denotes doc roots policy w f := by
  obtain ⟨hpath, -⟩ := h
  induction hpath using Relation.ReflTransGen.head_induction_on with
  | refl => exact ⟨hread, hn⟩
  | head hrefers _ ih =>
    obtain ⟨s, raw, ref, hs, rfl, hraw, href, htarget⟩ := hrefers
    obtain ⟨⟨w, hw⟩, hdenotes⟩ := ih
    refine ⟨⟨s.schema, hs⟩, fun v hv => ?_⟩
    have hv : v = s.schema := hdoc.eq hv hs
    rw [hv]
    exact .reference hraw href htarget hw (hdenotes w hw)

theorem LeadsTo.staysComposed (hdoc : Unambiguous doc roots) (h : LeadsTo doc roots p n)
    (hn : ∀ w, Reads doc roots ⟨n.id, w⟩ → StaysComposed doc roots w) :
    ∀ w, Reads doc roots ⟨p, w⟩ → StaysComposed doc roots w := by
  obtain ⟨hpath, -⟩ := h
  induction hpath using Relation.ReflTransGen.head_induction_on with
  | refl => exact hn
  | head hrefers _ ih =>
    obtain ⟨s, raw, ref, hs, rfl, hraw, href, htarget⟩ := hrefers
    intro v hv
    have hv : v = s.schema := hdoc.eq hv hs
    rw [hv]
    exact .reference hraw href htarget ih

end

theorem map_schema_listed (p : String) (schemas : List Value) :
    (listed p schemas).map (·.schema) = schemas := by
  rw [listed, List.map_map]
  exact List.zipIdx_map_fst 0 schemas

theorem branchParts_eq {p keyword : String} {schemas : List Value}
    (h : found raw keyword = .list schemas) :
    branchParts raw p keyword = listed (Pointer.child p keyword) schemas := by
  unfold branchParts
  rw [h]

theorem mem_branchParts {p keyword : String} {t : SchemaPlace} (h : t ∈ branchParts raw p keyword) :
    ∃ schemas, found raw keyword = .list schemas ∧ t.schema ∈ schemas := by
  cases hfound : found raw keyword with
  | list schemas =>
    rw [branchParts_eq hfound] at h
    refine ⟨schemas, rfl, ?_⟩
    rw [← map_schema_listed (Pointer.child p keyword) schemas]
    exact List.mem_map_of_mem h
  | map entries => simp [branchParts, hfound] at h
  | scalar s => simp [branchParts, hfound] at h

theorem reads_branchParts {s t : SchemaPlace} (hs : Reads doc roots s)
    (hraw : schemaEntries? s.schema = some raw) (hshape : shape raw = .composition)
    (ht : t ∈ branchParts raw s.pointer "allOf") : Reads doc roots t := by
  obtain ⟨href, hall⟩ := shape_eq_composition_iff.1 hshape
  have hnone : raw.get? "$ref" = none := by simpa [Entries.has] using href
  refine .part hs hraw ?_
  rw [parts, hnone, if_pos hall]
  exact List.mem_append_left _ ht

theorem Denotes.of_forall₂ {schemas : List Value} {fragments : List Fragment} {p : String}
    {ns : List Node} {merged : Node} (hraw : schemaEntries? v = some raw)
    (hshape : shape raw = .composition) (hall : found raw "allOf" = .list schemas)
    (hmembers : List.Forall₂ (Denotes doc roots policy) schemas fragments)
    (hns : ns.map Node.fragment = besideFragments raw ++ fragments)
    (hmerged : Merge.merge policy p ns = .ok merged) :
    Denotes doc roots policy v (merged.fragment.declaring (declared raw)) := by
  have hlength := hmembers.length_eq
  have hfst : found raw "allOf" = .list ((schemas.zip fragments).map Prod.fst) := by
    rw [hall, List.map_fst_zip (Nat.le_of_eq hlength)]
  apply Denotes.merged hraw hshape hfst _ _ hmerged
  · exact fun m hm => List.forall₂_zip hmembers hm
  · rw [hns, List.map_snd_zip (Nat.le_of_eq hlength.symm)]

/-- What stands beside a composition is one more fragment of it, or none. -/
theorem map_fragment_beside {setting : Setting} {p : String} {beside : Option Node}
    (hbeside : ∀ f ∈ beside, Plain setting (raw.without ["allOf"]) p f)
    (hpresent : beside.isSome = isStructural (raw.without ["allOf"])) :
    beside.toList.map Node.fragment = besideFragments raw := by
  unfold besideFragments
  rw [← hpresent]
  cases beside with
  | none => rfl
  | some f =>
    rw [← (hbeside f rfl).fragment_eq]
    rfl

namespace Origin
variable {setting : Setting} {n : Node}

theorem fragment_composed (merged : Node) (p : String) (discriminator : Option Discriminator) :
    (composed setting raw p merged discriminator).fragment =
      merged.fragment.declaring (declared raw) := rfl

theorem exists_reads (h : Origin setting roots n) (hflat : n.isComposed = false) :
    ∃ w, Reads setting.doc roots ⟨n.id, w⟩ := by
  cases h with
  | tuple members hplace => cases hflat
  | marker hs hraw href htarget => exact ⟨_, hs⟩
  | reference hs hraw href htarget => exact ⟨_, hs⟩
  | union hs hraw hshape members keyword discriminator => cases hflat
  | intersection hs hraw hshape ht hf hleads hcomposed discriminator => cases hflat
  | plain hs hraw hshape h =>
    rw [h.id_eq]
    exact ⟨_, hs⟩
  | merged hs hraw hshape hall hstored hleads hflat hbeside hpresent hmerged discriminator =>
    rw [show (composed setting _ _ _ discriminator).id = _ from (Merge.merged_of_merge hmerged).id]
    exact ⟨_, hs⟩

/-- Unions and intersections are made of schemas that come to one. -/
theorem staysComposed (hdoc : Unambiguous setting.doc roots) (h : Origin setting roots n)
    (hcomposed : n.isComposed = true) :
    ∀ w, Reads setting.doc roots ⟨n.id, w⟩ → StaysComposed setting.doc roots w := by
  induction h with
  | @tuple place members hplace =>
    intro w hw
    cases hraw : schemaEntries? w with
    | none => exact .listed hraw
    | some raw => exact absurd ⟨_, raw, hw, rfl, hraw⟩ (hplace hdoc.tuples)
  | marker hs hraw href htarget => cases hcomposed
  | reference hs hraw href htarget => cases hcomposed
  | union hs hraw hshape members keyword discriminator =>
    intro w hw
    rw [hdoc.eq hw hs]
    exact .union hraw hshape
  | intersection hs hraw hshape ht hf hleads hf' discriminator ih =>
    intro w hw
    rw [hdoc.eq hw hs]
    obtain ⟨schemas, hall, hmem⟩ := mem_branchParts ht
    have hmember := hleads.staysComposed hdoc (ih hf') _ (reads_branchParts hs hraw hshape ht)
    exact .intersection hraw hshape hall hmem hmember
  | @plain s raw n hs hraw hshape h =>
    intro w hw
    rw [h.id_eq] at hw
    rw [hdoc.eq hw hs]
    cases h with
    | types hseveral members => exact .types hraw hshape hseveral
    | single hone h =>
      unfold Node.isComposed at hcomposed
      rcases h.kind with hk | hk | hk | hk <;> rw [hk] at hcomposed <;> cases hcomposed
  | merged hs hraw hshape hall hstored hleads hflat hbeside hpresent hmerged discriminator =>
    have hkind := (Merge.merged_of_merge hmerged).kind
    simp only [Node.isComposed, composed] at hcomposed
    rcases hkind with hk | hk | hk | hk <;> rw [hk] at hcomposed <;> cases hcomposed

/-- Every other node without a target has the fragment that the schema at its place denotes. -/
theorem denotes (hdoc : Unambiguous setting.doc roots) (h : Origin setting roots n)
    (htarget : n.target = none) (hflat : n.isComposed = false) :
    ∀ w, Reads setting.doc roots ⟨n.id, w⟩ →
      Denotes setting.doc roots setting.policy w n.fragment := by
  induction h with
  | tuple members hplace => cases hflat
  | marker hs hraw href htarget' => cases htarget
  | reference hs hraw href htarget' => cases htarget
  | union hs hraw hshape members keyword discriminator => cases hflat
  | intersection hs hraw hshape ht hf hleads hf' discriminator ih => cases hflat
  | @plain s raw n hs hraw hshape h =>
    intro w hw
    rw [h.id_eq] at hw
    rw [hdoc.eq hw hs, h.fragment_eq]
    cases h with
    | types hseveral members => cases hflat
    | single hone h => exact .plain hraw hshape hone
  | @merged s raw stored beside merged schemas hs hraw hshape hall hstored hleads hmember hbeside
      hpresent hmerged discriminator ih =>
    intro w hw
    rw [show (composed setting _ _ _ discriminator).id = _ from
      (Merge.merged_of_merge hmerged).id] at hw
    rw [hdoc.eq hw hs, fragment_composed]
    have hdenotes : List.Forall₂ (Denotes setting.doc roots setting.policy) schemas
        (stored.map Node.fragment) := by
      rw [← map_schema_listed (Pointer.child s.pointer "allOf") schemas, ← branchParts_eq hall,
        List.forall₂_map_left_iff, List.forall₂_map_right_iff]
      refine forall₂_imp_mem hleads fun t ht f hf hlead => ?_
      have hfragment := ih f hf hlead.target (hmember f hf)
      have hread := (hstored f hf).exists_reads (hmember f hf)
      exact (hlead.denotes hdoc hread hfragment).2 _ (reads_branchParts hs hraw hshape ht)
    exact .of_forall₂ hraw hshape hall hdenotes
      (by rw [List.map_append, map_fragment_beside hbeside hpresent]) hmerged

end Origin

end Resolve
end OpenApi
