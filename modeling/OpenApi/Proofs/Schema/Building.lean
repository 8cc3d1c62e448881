import OpenApi.Proofs.Schema.Arena

/-!
What building a schema without references and compositions does to an arena, and what is certain of
the node. A builder enters the parts of its schema through `visit`; all that is assumed of `visit` is
`Keeps`.
-/
namespace OpenApi.Resolve

open Outcome (run_bind run_pure run_lift run_mapM)
open Pointer (child)

variable {setting : Setting} {roots : List SchemaPlace} {visit : Visit} {a b : Arena}
  {pointer p : String} {raw : Entries} {rest : List String} {values : List Value} {type : Value}

/-- Entering whatever is read keeps arenas sound, gives the id of the place entered, and stores a node
there. -/
def Keeps (setting : Setting) (roots : List SchemaPlace) (visit : Visit) : Prop :=
  ∀ s, Reads setting.doc roots s → ∀ a id b, Sound setting roots a →
    visit s.schema s.pointer a = .ok (id, b) →
    Sound setting roots b ∧ Grows setting roots a.active a b ∧ id = s.pointer ∧
      id ∈ Assoc.keys b.nodes

/-- Building a list of things one after the other. -/
theorem Sound.mapM {α β : Type} {f : α → Build β} {xs : List α} {ys : List β}
    (post : α → β → Arena → Prop)
    (mono : ∀ x y t u, (∀ k ∈ Assoc.keys t.nodes, k ∈ Assoc.keys u.nodes) → post x y t → post x y u)
    (step : ∀ x ∈ xs, ∀ t y u, Sound setting roots t → f x t = .ok (y, u) →
      Sound setting roots u ∧ Grows setting roots t.active t u ∧ post x y u)
    (ha : Sound setting roots a) (h : xs.mapM f a = .ok (ys, b)) :
    Sound setting roots b ∧ Grows setting roots a.active a b ∧
      List.Forall₂ (fun x y => post x y b) xs ys := by
  have hstep : ∀ x ∈ xs, ∀ t y u, (Sound setting roots t ∧ t.active = a.active) →
      f x t = .ok (y, u) → (Sound setting roots u ∧ u.active = a.active) ∧
        Grows setting roots a.active t u ∧ post x y u := by
    intro x hx t y u ⟨ht, hact⟩ hf
    obtain ⟨hu, hg, hp⟩ := step x hx t y u ht hf
    rw [hact] at hg
    exact ⟨⟨hu, hg.active.trans hact⟩, hg, hp⟩
  have hrun := run_mapM _ (Grows setting roots a.active) post Grows.refl
    (fun _ _ _ => Grows.trans) (fun x y t u hle => mono x y t u hle.keys) hstep ⟨ha, rfl⟩ h
  exact ⟨hrun.1.1, hrun.2⟩

theorem Keeps.visitAll (hv : Keeps setting roots visit) {schemas : List Value} {ids : List String}
    (hread : ∀ s ∈ listed pointer schemas, Reads setting.doc roots s) (ha : Sound setting roots a)
    (h : visitAll visit schemas pointer a = .ok (ids, b)) :
    Sound setting roots b ∧ Grows setting roots a.active a b ∧
      ids = (listed pointer schemas).map (·.pointer) ∧ ∀ id ∈ ids, id ∈ Assoc.keys b.nodes := by
  obtain ⟨hb, hg, hall⟩ := Sound.mapM (fun (e : Value × Nat) id t =>
      id = child pointer (Nat.repr e.2) ∧ id ∈ Assoc.keys t.nodes)
    (fun _ _ _ _ hsub hid => ⟨hid.1, hsub _ hid.2⟩)
    (fun e he t id u ht hf => hv ⟨_, e.1⟩ (hread _ (List.mem_map_of_mem he)) t id u ht hf) ha h
  refine ⟨hb, hg, ?_, Outcome.forall_mem_of_forall₂ (hall.imp fun _ _ hid => hid.2)⟩
  rw [listed, List.map_map, ← List.forall₂_eq_eq_eq, List.forall₂_map_right_iff]
  exact (hall.imp fun _ _ hid => hid.1).flip

/-! ### Schemas of one type -/

theorem text_ok {s : Scalar} {name : String} (h : s.text = .ok name) : s.text? = some name := by
  unfold Scalar.text written at h
  split at h
  · next heq => rw [heq, Except.ok.inj h]
  · cases h

theorem Keeps.visitProperties (hv : Keeps setting roots visit) {required : List String}
    {props : List Property} (hread : ∀ s ∈ propertyParts raw pointer, Reads setting.doc roots s)
    (ha : Sound setting roots a) (h : visitProperties visit raw required pointer a = .ok (props, b)) :
    Sound setting roots b ∧ Grows setting roots a.active a b ∧
      props.map (·.node) = (propertyParts raw pointer).map (·.pointer) ∧
      ∀ p ∈ props, p.node ∈ Assoc.keys b.nodes := by
  unfold Resolve.visitProperties at h
  obtain ⟨entries, t, he, hmap⟩ := run_bind.1 h
  obtain ⟨hentries, rfl⟩ := run_lift.1 he
  have hparts := Value.entries_ok hentries
  -- where the property of an entry is entered
  let place (e : Scalar × Value) : Option String :=
    e.1.text?.map fun name => Pointer.join pointer ["properties", name]
  have hstep : ∀ e ∈ entries, ∀ t p u, Sound setting roots t →
      (do
        let node ← visit e.2 (Pointer.join pointer ["properties", ← e.1.text])
        return { name := e.1, node, required := required.any fun r => e.1.same (.str r) } :
          Build Property) t = .ok (p, u) →
      Sound setting roots u ∧ Grows setting roots t.active t u ∧ place e = some p.node ∧
        p.node ∈ Assoc.keys u.nodes := by
    rintro ⟨name, schema⟩ hx t p u ht hf
    obtain ⟨text, t', hlift, hf⟩ := run_bind.1 hf
    obtain ⟨htext, rfl⟩ := run_lift.1 hlift
    obtain ⟨node, u', hnode, hf⟩ := run_bind.1 hf
    obtain ⟨rfl, rfl⟩ := run_pure.1 hf
    have hs : (⟨Pointer.join pointer ["properties", text], schema⟩ : SchemaPlace) ∈
        propertyParts raw pointer := by
      unfold propertyParts
      rw [hparts]
      exact List.mem_filterMap.2 ⟨(name, schema), hx, by simp [text_ok htext]⟩
    obtain ⟨hu, hg, hplace, hid⟩ := hv _ (hread _ hs) t node u' ht hnode
    exact ⟨hu, hg, by simp [place, text_ok htext, hplace], hid⟩
  obtain ⟨hb, hg, hall⟩ := Sound.mapM
    (fun e (p : Property) t => place e = some p.node ∧ p.node ∈ Assoc.keys t.nodes)
    (fun _ _ _ _ hsub hp => ⟨hp.1, hsub _ hp.2⟩) hstep ha hmap
  refine ⟨hb, hg, ?_, Outcome.forall_mem_of_forall₂ (hall.imp fun _ _ hp => hp.2)⟩
  have hplaces : (propertyParts raw pointer).map (·.pointer) = entries.filterMap place := by
    unfold propertyParts
    rw [hparts]
    simp [List.map_filterMap, place, Function.comp_def]
  rw [hplaces, Outcome.filterMap_eq_of_forall₂]
  rw [List.forall₂_map_right_iff]
  exact hall.imp fun _ _ hp => hp.1

theorem Keeps.visitAdditional (hv : Keeps setting roots visit) {additional : Additional String}
    (hread : ∀ s ∈ additionalParts raw pointer, Reads setting.doc roots s) (ha : Sound setting roots a)
    (h : visitAdditional visit raw pointer a = .ok (additional, b)) :
    Sound setting roots b ∧ Grows setting roots a.active a b ∧
      additional = additionalPlace raw pointer ∧
      ∀ m ∈ additional.toList, m ∈ Assoc.keys b.nodes := by
  unfold Resolve.visitAdditional at h
  unfold additionalParts at hread
  unfold additionalPlace
  cases heq : found raw "additionalProperties" with
  | map entries =>
    rw [heq] at h hread
    obtain ⟨id, t, hid, h⟩ := run_bind.1 h
    obtain ⟨rfl, rfl⟩ := run_pure.1 h
    obtain ⟨hu, hg, hplace, hmem⟩ := hv _ (hread _ (List.mem_singleton_self _)) a id t ha hid
    refine ⟨hu, hg, congrArg _ hplace, ?_⟩
    intro m hm
    rw [List.mem_singleton.1 hm]
    exact hmem
  | list items =>
    rw [heq] at h
    obtain ⟨rfl, rfl⟩ := run_pure.1 h
    exact ⟨ha, .refl _, rfl, nofun⟩
  | scalar s =>
    rw [heq] at h
    cases s <;> obtain ⟨rfl, rfl⟩ := run_pure.1 h <;> exact ⟨ha, .refl _, rfl, nofun⟩

/-- The properties that are entered are those that the schema lists. -/
theorem listedProperties_of_visitProperties {required : List String} {props : List Property}
    (h : visitProperties visit raw required pointer a = .ok (props, b)) :
    props.map (fun prop => (prop.name, prop.required)) = listedProperties raw required := by
  unfold Resolve.visitProperties at h
  obtain ⟨entries, t, he, hmap⟩ := run_bind.1 h
  obtain ⟨hentries, rfl⟩ := run_lift.1 he
  obtain ⟨-, -, hall⟩ := run_mapM (fun _ => True) (fun _ _ => True)
    (fun (e : Scalar × Value) (prop : Property) _ => (prop.name, prop.required) =
      (e.1, required.any fun r => e.1.same (.str r)))
    (fun _ => trivial) (fun _ _ _ _ _ => trivial) (fun _ _ _ _ _ hprop => hprop)
    (by
      rintro ⟨name, schema⟩ - t prop u - hf
      obtain ⟨text, t', -, hf⟩ := run_bind.1 hf
      obtain ⟨node, u', -, hf⟩ := run_bind.1 hf
      obtain ⟨rfl, rfl⟩ := run_pure.1 hf
      exact ⟨trivial, trivial, rfl⟩) trivial hmap
  unfold listedProperties
  rw [Value.entries_ok hentries, ← List.forall₂_eq_eq_eq, List.forall₂_map_left_iff,
    List.forall₂_map_right_iff]
  exact hall.flip

theorem specifiesAdditional_of_visitAdditional {additional : Additional String}
    (h : visitAdditional visit raw pointer a = .ok (additional, b)) :
    Merge.isSpecified additional = specifiesAdditional raw := by
  unfold Resolve.visitAdditional at h
  unfold specifiesAdditional
  cases heq : found raw "additionalProperties" with
  | map entries =>
    rw [heq] at h
    obtain ⟨id, t, -, h⟩ := run_bind.1 h
    obtain ⟨rfl, rfl⟩ := run_pure.1 h
    rfl
  | list items =>
    rw [heq] at h
    obtain ⟨rfl, rfl⟩ := run_pure.1 h
    rfl
  | scalar s =>
    rw [heq] at h
    cases s <;> obtain ⟨rfl, rfl⟩ := run_pure.1 h <;> rfl

/-- Storing the union of listed items at their place below `p`, which is being built. -/
theorem Sound.storeTuple {members : List String} (ha : Sound setting roots a)
    (hact : a.active = p :: rest) (hp : p ∉ rest)
    (hfree : TuplesApart setting.doc roots → child p "items" ∉ Assoc.keys a.nodes ∧
      ¬ Entered setting.doc roots (child p "items"))
    (hm : ∀ m ∈ members, m ∈ Assoc.keys a.nodes) {place : String}
    (hplace : place = child p "items") :
    let node : Node := { id := place, kind := .union, members, unionKeyword := some "items" }
    let b : Arena := { a with
      pointers := Assoc.insert a.pointers place place
      nodes := Assoc.insert a.nodes place node }
    Sound setting roots b ∧ Grows setting roots rest a b ∧ place ∈ Assoc.keys b.nodes := by
  intro node b
  have hmentions : ∀ m ∈ node.mentions, m ∈ Assoc.keys a.nodes := by
    intro m hmem
    apply hm
    simpa [node, Node.mentions, Additional.toList] using hmem
  refine ⟨?_, ?_, Assoc.mem_keys_insert.2 (.inr rfl)⟩
  · refine ha.store rfl (.tuple _ fun hap => hplace ▸ (hfree hap).2) (fun j hj => .inr hj) (fun j hj => hj)
      (.inr ⟨p, hplace, by rw [hact]; exact List.mem_cons_self ..⟩) (fun _ => hmentions)
      (fun hmark => by cases hmark) (fun _ _ ht => by cases ht) (.inl rfl) ?_ ?_ ?_
    · intro hap
      rw [hplace]
      exact ⟨(hfree hap).1, fun hin => (hfree hap).2 (ha.active_entered _ hin)⟩
    · intro r j hj
      exact (Assoc.mem_insert hj).imp_right And.right
    · intro j hj
      by_cases hjp : j = place
      · rw [hjp]
        exact Assoc.lookup_insert_self ..
      · rw [Assoc.lookup_insert_of_ne _ hjp]
        exact hj.resolve_left hjp
  · refine ⟨fun k hk => Assoc.mem_keys_insert.2 (.inl hk), rfl, ?_⟩
    intro q hq hmem
    rcases Assoc.mem_keys_insert.1 hmem with hmem | heq
    · exact .inl hmem
    · rw [hplace] at heq
      exact absurd (Pointer.child_inj_left heq ▸ hq) hp

theorem Keeps.visitItems (hv : Keeps setting roots visit) {items : Option String}
    (hread : ∀ s ∈ itemParts raw p, Reads setting.doc roots s) (ha : Sound setting roots a)
    (hact : a.active = p :: rest) (hp : p ∉ rest)
    (hfree : ∀ schemas, found raw "items" = .list schemas → TuplesApart setting.doc roots →
      child p "items" ∉ Assoc.keys a.nodes ∧
        ¬ Entered setting.doc roots (child p "items"))
    (h : visitItems visit raw p a = .ok (items, b)) :
    Sound setting roots b ∧ Grows setting roots rest a b ∧
      items = (if (found raw "items").isNull then none else some (child p "items")) ∧
      ∀ m ∈ items.toList, m ∈ Assoc.keys b.nodes := by
  -- one schema for all items
  have hone : ∀ schema, (⟨child p "items", schema⟩ : SchemaPlace) ∈ itemParts raw p →
      (visit schema (child p "items") >>= fun id => pure (some id)) a = .ok (items, b) →
      Sound setting roots b ∧ Grows setting roots rest a b ∧
        items = some (child p "items") ∧ ∀ m ∈ items.toList, m ∈ Assoc.keys b.nodes := by
    intro schema hs hrun
    obtain ⟨id, t, hid, hrun⟩ := run_bind.1 hrun
    obtain ⟨rfl, rfl⟩ := run_pure.1 hrun
    obtain ⟨hu, hg, hplace, hmem⟩ := hv _ (hread _ hs) a id t ha hid
    refine ⟨hu, hg.of_active hact, congrArg some hplace, ?_⟩
    intro m hm
    rw [List.mem_singleton.1 hm]
    exact hmem
  unfold Resolve.visitItems at h
  unfold itemParts at hread hone
  cases heq : found raw "items" with
  | list schemas =>
    rw [heq] at h hread
    obtain ⟨members, t, hmembers, h⟩ := run_bind.1 h
    obtain ⟨_, u, hmod, h⟩ := run_bind.1 h
    obtain ⟨rfl, rfl⟩ := run_pure.1 h
    obtain ⟨ht, hg, -, hm⟩ := hv.visitAll hread ha hmembers
    have hheld : p ∈ a.active := by
      rw [hact]
      exact List.mem_cons_self ..
    obtain ⟨hu, hg', hplace⟩ := ht.storeTuple (hg.active.trans hact) hp
      (fun hap => hg.free_of_held hheld (hfree schemas heq hap)) hm rfl
    rw [← Outcome.run_modify.1 hmod]
    refine ⟨hu, (hg.of_active hact).trans hg', rfl, ?_⟩
    intro m hmem
    rw [List.mem_singleton.1 hmem]
    exact hplace
  | map entries =>
    rw [heq] at h hone
    exact hone _ (List.mem_singleton_self _) h
  | scalar s =>
    rw [heq] at h hone
    cases s with
    | null =>
      obtain ⟨rfl, rfl⟩ := run_pure.1 h
      exact ⟨ha, .refl _, rfl, nofun⟩
    | _ => exact hone _ (List.mem_singleton_self _) h

theorem any_itemsPlace (raw : Entries) (p : String) :
    ((if (found raw "items").isNull then none else some (child p "items")).any
      fun id => !id.isEmpty) = !(found raw "items").isNull := by
  cases (found raw "items").isNull with
  | true => rfl
  | false => simp [Pointer.child_eq]

/-- A node that mentions only what is stored. -/
def Stored (a : Arena) (n : Node) : Prop := ∀ m ∈ n.mentions, m ∈ Assoc.keys a.nodes

theorem enumValues_ok (h : enumValues raw p = .ok values) : enumValues raw "" = .ok values := by
  unfold enumValues at h ⊢
  split at h <;> first | exact h | cases h

theorem singleForm_of_no_enum (h : enumValues raw p = .ok values)
    (hf : (values.filter fun v => !v.isNull) = []) :
    singleForm raw type =
      if type.same (.str "object") || raw.has "properties" || raw.has "additionalProperties" then
        .object
      else if type.same (.str "array") || raw.has "items" then .array
      else .other := by
  have hany : ¬ (values.any fun v => !v.isNull) = true := by
    rw [List.any_eq_true]
    rintro ⟨v, hv, hn⟩
    exact List.filter_eq_nil_iff.1 hf v hv hn
  unfold singleForm
  rw [enumValues_ok h]
  exact if_neg hany

theorem singleForm_of_enum {first : Value} {tail : List Value} (h : enumValues raw p = .ok values)
    (hf : (values.filter fun v => !v.isNull) = first :: tail) :
    singleForm raw type = .enum := by
  have hmem : first ∈ values.filter fun v => !v.isNull := hf ▸ List.mem_cons_self
  have hany : (values.any fun v => !v.isNull) = true :=
    List.any_eq_true.2 ⟨first, List.mem_filter.1 hmem⟩
  unfold singleForm
  rw [enumValues_ok h]
  exact if_pos hany

theorem required_ok {names : List String} (h : required raw p = .ok names) :
    required raw "" = .ok names := by
  unfold required at h ⊢
  split at h
  · split at h
    · exact h
    · cases h
  · cases h

theorem Keeps.single (hv : Keeps setting roots visit) {n : Node} (htype : StatesType raw type)
    (hsole : type = soleType raw) (hone : form raw = singleForm raw type)
    (hread : ∀ s ∈ formParts raw p (singleForm raw type), Reads setting.doc roots s)
    (ha : Sound setting roots a) (hact : a.active = p :: rest) (hp : p ∉ rest)
    (hfree : formTuple raw (singleForm raw type) = true → TuplesApart setting.doc roots →
      child p "items" ∉ Assoc.keys a.nodes ∧
        ¬ Entered setting.doc roots (child p "items"))
    (h : single setting visit raw p type a = .ok (n, b)) :
    Sound setting roots b ∧ Grows setting roots rest a b ∧ Single setting raw p n ∧ Stored b n := by
  unfold Resolve.single at h
  obtain ⟨values, t, hlift, h⟩ := run_bind.1 h
  obtain ⟨hvalues, rfl⟩ := run_lift.1 hlift
  obtain ⟨required, t, hlift, h⟩ := run_bind.1 h
  obtain ⟨hrequired, rfl⟩ := run_lift.1 hlift
  have hfragment : singleFragment raw (soleType raw) = singleFragment raw type := by rw [hsole]
  rw [singleFragment.eq_def raw type] at hfragment
  rw [enumValues_ok hvalues, required_ok hrequired] at hfragment
  dsimp only [Except.toOption, Option.getD_some] at h hfragment
  cases hf : values.filter fun v => !v.isNull with
  | cons first tail =>
    -- an enumeration, whose type may be that of its values
    rw [hf] at h hfragment
    obtain ⟨rfl, rfl⟩ := run_pure.1 h
    have hform : form raw = .enum := hone.trans (singleForm_of_enum hvalues hf)
    refine ⟨ha, .refl _, ⟨rfl, rfl, .inr (.inr (.inr rfl)), rfl, rfl, ?_, hfragment.symm, ?_, ?_, ?_⟩,
      nofun⟩
    · dsimp only
      split
      · exact .inr ⟨_, rfl⟩
      · exact .inl htype
    all_goals
      rw [hform]
      rfl
  | nil =>
    rw [hf] at h hfragment
    dsimp only at h hfragment
    have hform : singleForm raw type = _ := singleForm_of_no_enum hvalues hf
    split at h
    · -- an object
      next hobj =>
      rw [if_pos hobj] at hform hfragment
      rw [hform] at hread hone
      obtain ⟨props, t, hprops, h⟩ := run_bind.1 h
      obtain ⟨additional, u, hadd, h⟩ := run_bind.1 h
      obtain ⟨rfl, rfl⟩ := run_pure.1 h
      obtain ⟨ht, hg, hids, hprop⟩ :=
        hv.visitProperties (fun s hs => hread s (List.mem_append_left _ hs)) ha hprops
      obtain ⟨hu, hg', hplace, hm⟩ :=
        hv.visitAdditional (fun s hs => hread s (List.mem_append_right _ hs)) ht hadd
      rw [hg.active] at hg'
      refine ⟨hu, (hg.trans hg').of_active hact,
        ⟨rfl, rfl, .inr (.inl rfl), rfl, rfl, .inr ⟨_, rfl⟩, ?_, hone ▸ hids, hone ▸ rfl,
          hone ▸ hplace⟩, ?_⟩
      · rw [hfragment, ← listedProperties_of_visitProperties hprops,
          ← specifiesAdditional_of_visitAdditional hadd]
        rfl
      intro m hmem
      rcases Node.mem_mentions.1 hmem with ⟨q, hq, rfl⟩ | hmem | hmem | hmem | hmem
      · exact hg'.keys _ (hprop q hq)
      · cases hmem
      · exact hm m hmem
      · cases hmem
      · cases hmem
    · next hobj =>
      rw [if_neg hobj] at hform hfragment
      split at h
      · -- an array
        next harr =>
        rw [if_pos harr] at hform hfragment
        rw [hform] at hread hfree hone
        obtain ⟨items, t, hitems, h⟩ := run_bind.1 h
        obtain ⟨rfl, rfl⟩ := run_pure.1 h
        obtain ⟨ht, hg, hplace, hm⟩ := hv.visitItems hread ha hact hp
          (fun schemas hs => hfree (by simp [formTuple, hs])) hitems
        refine ⟨ht, hg, ⟨rfl, rfl, .inr (.inr (.inl rfl)), rfl, rfl, .inr ⟨_, rfl⟩, ?_, hone ▸ rfl,
          hone ▸ hplace, hone ▸ rfl⟩, ?_⟩
        · rw [hfragment, ← any_itemsPlace raw p, ← hplace]
          rfl
        intro m hmem
        rcases Node.mem_mentions.1 hmem with ⟨q, hq, rfl⟩ | hmem | hmem | hmem | hmem
        · cases hq
        · exact hm m hmem
        · cases hmem
        · cases hmem
        · cases hmem
      · next harr =>
        rw [if_neg harr] at hform hfragment
        rw [hform] at hone
        obtain ⟨rfl, rfl⟩ := run_pure.1 h
        exact ⟨ha, .refl _, ⟨rfl, rfl, .inl rfl, rfl, rfl, .inl htype, hfragment.symm, hone ▸ rfl,
          hone ▸ rfl, hone ▸ rfl⟩, List.forall_mem_nil _⟩

theorem Keeps.plain (hv : Keeps setting roots visit) {n : Node}
    (hread : ∀ s ∈ plainParts raw p, Reads setting.doc roots s) (ha : Sound setting roots a)
    (hact : a.active = p :: rest) (hp : p ∉ rest)
    (hfree : plainTuple raw = true → TuplesApart setting.doc roots →
      child p "items" ∉ Assoc.keys a.nodes ∧
        ¬ Entered setting.doc roots (child p "items"))
    (h : plain setting visit raw p a = .ok (n, b)) :
    Sound setting roots b ∧ Grows setting roots rest a b ∧ Plain setting raw p n ∧ Stored b n := by
  -- a schema of one type, once its form is known
  have hsingle : ∀ type, StatesType raw type → type = soleType raw → severalTypes raw = false →
      form raw = singleForm raw type → Resolve.single setting visit raw p type a = .ok (n, b) →
      Sound setting roots b ∧ Grows setting roots rest a b ∧ Plain setting raw p n ∧
        Stored b n := by
    intro type htype hsole hone hform hrun
    unfold plainParts at hread
    unfold plainTuple at hfree
    rw [hform] at hread hfree
    obtain ⟨hb, hg, hs, hst⟩ := hv.single htype hsole hform hread ha hact hp hfree hrun
    exact ⟨hb, hg, .single hone hs, hst⟩
  unfold Resolve.plain at h
  cases htype : found raw "type" with
  | list types =>
    rw [htype] at h
    dsimp only at h
    cases hf : types.filter fun t => !t.same (.str "null") with
    | nil =>
      rw [hf] at h
      exact hsingle _ (.inl rfl) (by simp [soleType, htype, hf]) (by simp [severalTypes, htype, hf])
        (by simp [form, htype, hf]) h
    | cons first tail =>
      have hfirst : first ∈ types := by
        have hmem : first ∈ types.filter fun t => !t.same (.str "null") := by
          rw [hf]
          exact List.mem_cons_self ..
        exact (List.mem_filter.1 hmem).1
      rw [hf] at h
      cases tail with
      | nil =>
        exact hsingle _ (.inr (.inr ⟨types, htype, hfirst⟩)) (by simp [soleType, htype, hf])
          (by simp [severalTypes, htype, hf]) (by simp [form, htype, hf]) h
      | cons second tail =>
        -- several types: a union of schemas that state one type each
        have hform : form raw = .types (first :: second :: tail) := by simp [form, htype, hf]
        obtain ⟨members, t, hmembers, h⟩ := run_bind.1 h
        obtain ⟨rfl, rfl⟩ := run_pure.1 h
        unfold plainParts at hread
        rw [hform] at hread
        obtain ⟨ht, hg, -, hm⟩ := hv.visitAll hread ha hmembers
        have hseveral : severalTypes raw = true := by simp [severalTypes, htype, hf]
        refine ⟨ht, hg.of_active hact, .types hseveral members, ?_⟩
        intro m hmem
        apply hm
        simpa [Node.mentions, common, Additional.toList] using hmem
  | map entries | scalar s =>
    rw [htype] at h
    exact hsingle _ (.inr (.inl htype.symm)) (by simp [soleType, htype])
      (by simp [severalTypes, htype]) (by simp [form, htype]) h

end OpenApi.Resolve
