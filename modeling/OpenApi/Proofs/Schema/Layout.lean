import OpenApi.Proofs.Schema.Denotation

/-!
What a schema says together with the ids of its parts. Where a document reads every place in one way, it
decides this of every node that is neither a reference nor a union or intersection: references lead from a
place to one id only, and nodes with the same id are made of the same keywords.
-/
namespace OpenApi

/-- What a node says, and where its parts are. -/
structure Layout where
  fragment : Fragment
  properties : List Property
  items : Option String
  additional : Additional String

def Node.layout (n : Node) : Layout where
  fragment := n.fragment
  properties := n.properties
  items := n.items
  additional := n.additional

namespace Merge

variable {policy : MergePolicy} {p q : String} {ns ms : List Node} {n m : Node}

/-- Merging depends on layouts only. -/
theorem layout_eq_of_merge (h : ns.map Node.layout = ms.map Node.layout)
    (hn : merge policy p ns = .ok n) (hm : merge policy q ms = .ok m) : n.layout = m.layout := by
  have hfragments : ns.map Node.fragment = ms.map Node.fragment := by
    have hmap := congrArg (List.map Layout.fragment) h
    rwa [List.map_map, List.map_map] at hmap
  have hfragment := fragment_eq_of_merge hfragments hn hm
  obtain ⟨t, cs, -, -, rfl⟩ := merge_ok hn
  obtain ⟨t', cs', -, -, rfl⟩ := merge_ok hm
  have hproperties : properties ns = properties ms := by
    have hflat : ns.flatMap (·.properties) = ms.flatMap (·.properties) := by
      have hmap := congrArg (List.flatMap Layout.properties) h
      rwa [List.flatMap_map, List.flatMap_map] at hmap
    unfold properties
    rw [hflat, (sameShape_of_fragments hfragments).required]
  have hlast : ∀ a, (lastDeclaring? ns a).map Node.layout = (lastDeclaring? ms a).map Node.layout := by
    intro a
    have hfilter : ∀ ks : List Node, (ks.filter (declares a)).map Node.layout =
        (ks.map Node.layout).filter fun l => l.fragment.declares a := by
      intro ks
      rw [List.filter_map]
      rfl
    unfold lastDeclaring?
    rw [← List.getLast?_map, ← List.getLast?_map, hfilter, hfilter, h]
  have hitems : (lastDeclaring? ns .items).bind (·.items) = (lastDeclaring? ms .items).bind (·.items) := by
    have hbind := congrArg (Option.bind · Layout.items) (hlast .items)
    rwa [Option.bind_map, Option.bind_map] at hbind
  have hadditional : settled ns .additional (·.additional) .unspecified =
      settled ms .additional (·.additional) .unspecified := by
    have hmap := congrArg (Option.map Layout.additional) (hlast .additional)
    rw [Option.map_map, Option.map_map] at hmap
    exact congrArg (·.getD .unspecified) hmap
  unfold Node.layout
  rw [hfragment]
  simp only [assembled, hproperties, hitems, hadditional]

end Merge

namespace Resolve

variable {setting : Setting} {doc v : Value} {roots : List SchemaPlace} {p : String} {raw : Entries}
  {n m : Node}

/-! ### Nodes that are neither references nor composed -/

/-- How a composition with the keywords `raw` is merged into a node. -/
structure MergedInto (setting : Setting) (roots : List SchemaPlace) (raw : Entries) (n : Node)
    (stored : List Node) (beside : Option Node) (merged : Node) : Prop where
  origin : ∀ f ∈ stored, Origin setting roots f
  leads : List.Forall₂ (fun t f => LeadsTo setting.doc roots t.pointer f)
    (branchParts raw n.id "allOf") stored
  flat : ∀ f ∈ stored, f.isComposed = false
  plain : ∀ f ∈ beside, Plain setting (raw.without ["allOf"]) n.id f
  present : beside.isSome = isStructural (raw.without ["allOf"])
  merge : Merge.merge setting.policy n.id (beside.toList ++ stored) = .ok merged
  eq : ∃ discriminator, n = composed setting raw n.id merged discriminator

namespace Origin

/-- Such a node is made of a plain schema or merged from a composition. -/
theorem flat_cases (h : Origin setting roots n) (htarget : n.target = none)
    (hflat : n.isComposed = false) :
    ∃ v raw, Reads setting.doc roots ⟨n.id, v⟩ ∧ schemaEntries? v = some raw ∧
      (shape raw = .plain ∧ Plain setting raw n.id n ∨
        shape raw = .composition ∧ ∃ stored beside merged,
          MergedInto setting roots raw n stored beside merged) := by
  cases h with
  | tuple members hplace => cases hflat
  | marker hs hraw href htarget' => cases htarget
  | reference hs hraw href htarget' => cases htarget
  | union hs hraw hshape members keyword discriminator => cases hflat
  | intersection hs hraw hshape ht hf hleads hf' discriminator => cases hflat
  | plain hs hraw hshape h =>
    have hid := h.id_eq
    rw [← hid] at h
    exact ⟨_, _, hid ▸ hs, hraw, .inl ⟨hshape, h⟩⟩
  | @merged s raw stored beside merged schemas hs hraw hshape hall hstored hleads hmember hbeside
      hpresent hmerged discriminator =>
    have hid : (composed setting raw s.pointer merged discriminator).id = s.pointer :=
      (Merge.merged_of_merge hmerged).id
    refine ⟨s.schema, raw, by rwa [hid], hraw, .inr ⟨hshape, stored, beside, merged, ?_⟩⟩
    exact ⟨hstored, by rwa [hid], hmember, by rwa [hid], hpresent, by rwa [hid], discriminator,
      by rw [hid]⟩

variable (hdoc : Unambiguous setting.doc roots) (h : Origin setting roots n) (htarget : n.target = none)
  (hflat : n.isComposed = false)
include hdoc h htarget hflat

theorem plain_inv (hv : Reads setting.doc roots ⟨n.id, v⟩) (hraw : schemaEntries? v = some raw)
    (hshape : shape raw = .plain) : Plain setting raw n.id n := by
  obtain ⟨w, raw', hw, hraw', hcases⟩ := h.flat_cases htarget hflat
  rw [hdoc.eq hw hv] at hraw'
  obtain rfl := Option.some.inj (hraw.symm.trans hraw')
  rcases hcases with ⟨-, hplain⟩ | ⟨hshape', -⟩
  · exact hplain
  · cases hshape.symm.trans hshape'

theorem merged_inv (hv : Reads setting.doc roots ⟨n.id, v⟩) (hraw : schemaEntries? v = some raw)
    (hshape : shape raw = .composition) :
    ∃ stored beside merged, MergedInto setting roots raw n stored beside merged := by
  obtain ⟨w, raw', hw, hraw', hcases⟩ := h.flat_cases htarget hflat
  rw [hdoc.eq hw hv] at hraw'
  obtain rfl := Option.some.inj (hraw.symm.trans hraw')
  rcases hcases with ⟨hshape', -⟩ | ⟨-, hmerged⟩
  · cases hshape.symm.trans hshape'
  · exact hmerged

theorem not_refers (target : String) : ¬ Refers setting.doc roots n.id target := by
  rintro ⟨⟨_, v⟩, raw, ref, hv, rfl, hraw, href, -⟩
  obtain ⟨w, raw', hw, hraw', hcases⟩ := h.flat_cases htarget hflat
  rw [hdoc.eq hw hv] at hraw'
  rcases hcases with ⟨hshape, -⟩ | ⟨hshape, -⟩ <;>
    cases shape_unique hraw hraw' (shape_of_ref href) hshape

end Origin

/-! ### Where references lead -/

theorem Refers.rightUnique (hdoc : Unambiguous doc roots) : Relator.RightUnique (Refers doc roots) := by
  rintro place target target' ⟨s, raw, ref, hs, hp, hraw, href, htarget⟩
    ⟨s', raw', ref', hs', hp', hraw', href', htarget'⟩
  rw [hdoc.once _ _ hs hs' (hp.trans hp'.symm)] at hraw
  obtain rfl := Option.some.inj (hraw.symm.trans hraw')
  cases Option.some.inj (href.symm.trans href')
  exact Except.ok.inj (htarget.symm.trans htarget')

/-- References lead from a place to one id only. -/
theorem LeadsTo.id_eq (hdoc : Unambiguous setting.doc roots) (hn : LeadsTo setting.doc roots p n)
    (hm : LeadsTo setting.doc roots p m) (horigin : Origin setting roots n)
    (horigin' : Origin setting roots m) (hflat : n.isComposed = false) (hflat' : m.isComposed = false) :
    n.id = m.id := by
  have hend := horigin.not_refers hdoc hn.target hflat
  have hend' := horigin'.not_refers hdoc hm.target hflat'
  rcases Relation.ReflTransGen.total_of_right_unique (Refers.rightUnique hdoc) hn.path hm.path with
    hpath | hpath
  · exact ((Relation.reflTransGen_iff_eq hend).1 hpath).symm
  · exact (Relation.reflTransGen_iff_eq hend').1 hpath

/-! ### Nodes with the same id -/

theorem properties_eq_of_map {props others : List Property}
    (hnames : props.map (fun q => (q.name, q.required)) = others.map fun q => (q.name, q.required))
    (hnodes : props.map (·.node) = others.map (·.node)) : props = others := by
  have hinj : Function.Injective fun q : Property => ((q.name, q.required), q.node) := by
    rintro ⟨name, node, required⟩ ⟨name', node', required'⟩ h
    simp_all
  have hzip : ∀ l : List Property, l.map (fun q => ((q.name, q.required), q.node)) =
      (l.map fun q => (q.name, q.required)).zip (l.map (·.node)) := fun l => (List.zip_map' ..).symm
  refine List.map_injective_iff.2 hinj ?_
  rw [hzip, hzip, hnames, hnodes]

theorem Plain.layout_eq (hn : Plain setting raw p n) (hm : Plain setting raw p m) :
    n.layout = m.layout := by
  have hfragment : n.fragment = m.fragment := hn.fragment_eq.trans hm.fragment_eq.symm
  cases hn with
  | types hseveral members =>
    cases hm with
    | types _ members' => rfl
    | single hone _ => cases hseveral.symm.trans hone
  | single hone hn =>
    cases hm with
    | types hseveral members => cases hseveral.symm.trans hone
    | single _ hm =>
      have hproperties : n.properties = m.properties :=
        properties_eq_of_map (congrArg (fun f : Fragment => f.properties) hfragment)
          (hn.properties.trans hm.properties.symm)
      unfold Node.layout
      rw [hfragment, hproperties, hn.items, hm.items, hn.additional, hm.additional]

theorem layout_composed {merged merged' : Node} (h : merged.layout = merged'.layout)
    (discriminator discriminator' : Option Discriminator) :
    (composed setting raw p merged discriminator).layout =
      (composed setting raw p merged' discriminator').layout := by
  obtain ⟨hfragment, hproperties, hitems, hadditional⟩ := Layout.mk.inj h
  unfold Node.layout
  rw [Origin.fragment_composed, Origin.fragment_composed, hfragment]
  simp only [composed, hproperties, hitems, hadditional]

theorem map_eq_of_forall₂ {α β γ : Type} {R S : α → β → Prop} {xs : List α} {ys zs : List β} (g : β → γ)
    (hy : List.Forall₂ R xs ys) (hz : List.Forall₂ S xs zs)
    (h : ∀ x, ∀ y ∈ ys, ∀ z ∈ zs, R x y → S x z → g y = g z) : ys.map g = zs.map g := by
  induction hy generalizing zs with
  | nil =>
    cases hz
    rfl
  | cons hxy hy ih =>
    cases hz with
    | cons hxz hz =>
      rw [List.map_cons, List.map_cons]
      congr 1
      · exact h _ _ List.mem_cons_self _ List.mem_cons_self hxy hxz
      · exact ih hz fun x y hy z hz => h x y (List.mem_cons_of_mem _ hy) z (List.mem_cons_of_mem _ hz)

theorem map_layout_beside {beside beside' : Option Node} (h : ∀ f ∈ beside, Plain setting raw p f)
    (h' : ∀ f ∈ beside', Plain setting raw p f) (hsome : beside.isSome = beside'.isSome) :
    beside.toList.map Node.layout = beside'.toList.map Node.layout := by
  cases beside with
  | none =>
    cases beside' with
    | none => rfl
    | some f' => cases hsome
  | some f =>
    cases beside' with
    | none => cases hsome
    | some f' => exact congrArg (fun l => [l]) ((h f rfl).layout_eq (h' f' rfl))

/-- A document decides the layout of the node at a place. -/
theorem Origin.layout_eq (hdoc : Unambiguous setting.doc roots) (hn : Origin setting roots n)
    (hm : Origin setting roots m) (htarget : n.target = none) (htarget' : m.target = none)
    (hflat : n.isComposed = false) (hflat' : m.isComposed = false) (hid : n.id = m.id) :
    n.layout = m.layout := by
  induction hn generalizing m with
  | tuple members hplace => cases hflat
  | marker hs hraw href _ => cases htarget
  | reference hs hraw href _ => cases htarget
  | union hs hraw hshape members keyword discriminator => cases hflat
  | intersection hs hraw hshape ht hf hleads hf' discriminator ih => cases hflat
  | @plain s raw n hs hraw hshape hn =>
    have hp : s.pointer = m.id := hn.id_eq.symm.trans hid
    rw [hp] at hn
    exact hn.layout_eq (hm.plain_inv hdoc htarget' hflat' (hp ▸ hs) hraw hshape)
  | @merged s raw stored beside merged schemas hs hraw hshape hall hstored hleads hmember hbeside
      hpresent hmerged discriminator ih =>
    have hp : s.pointer = m.id := (Merge.merged_of_merge hmerged).id.symm.trans hid
    obtain ⟨stored', beside', merged', hinto⟩ :=
      hm.merged_inv hdoc htarget' hflat' (hp ▸ hs) hraw hshape
    obtain ⟨discriminator', hm'⟩ := hinto.eq
    rw [hp] at hleads hbeside hmerged ⊢
    rw [hm']
    -- the parts of the composition lead to nodes with the same ids
    have hparts : stored.map Node.layout = stored'.map Node.layout := by
      refine map_eq_of_forall₂ Node.layout hleads hinto.leads fun t f hf f' hf' hlead hlead' => ?_
      have hid := hlead.id_eq hdoc hlead' (hstored f hf) (hinto.origin f' hf') (hmember f hf)
        (hinto.flat f' hf')
      exact ih f hf (hinto.origin f' hf') hlead.target hlead'.target (hmember f hf) (hinto.flat f' hf') hid
    have hall : (beside.toList ++ stored).map Node.layout =
        (beside'.toList ++ stored').map Node.layout := by
      rw [List.map_append, List.map_append, hparts,
        map_layout_beside hbeside hinto.plain (hpresent.trans hinto.present.symm)]
    exact layout_composed (Merge.layout_eq_of_merge hall hmerged hinto.merge) discriminator discriminator'

end Resolve
end OpenApi
