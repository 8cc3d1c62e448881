import OpenApi.Proofs.Fault
import OpenApi.Proofs.Schema.Chains

/-!
How building a schema depends on entering its parts. Two ways to enter schemas that agree on the parts of
a schema make the same of it. What goes wrong is what goes wrong in a part, or what is wrong with the
schema alone, or a composition that refers to something that is still being built.
-/
namespace OpenApi.Resolve

open Outcome (Agree Faults)

variable {setting : Setting} {roots : List SchemaPlace} {visit visit' : Visit} {fault : Fault → Prop}
  {inv : Arena → Prop} {raw : Entries} {pointer : String} {keyword p : String} {rest : List String}

/-- Two ways to enter a schema come to the same where `inv` holds. They keep `inv` and give the id of the
place. -/
def Alike (inv : Arena → Prop) (fault : Fault → Prop) (visit' visit : Visit) (t : SchemaPlace) :
    Prop :=
  Agree inv (visit' t.schema t.pointer) (visit t.schema t.pointer)
    (fun id b => inv b ∧ id = t.pointer) fault

/-! ### Schemas without references and compositions -/

theorem visitAll_agree {schemas : List Value}
    (h : ∀ t ∈ listed pointer schemas, Alike inv fault visit' visit t) :
    Agree inv (visitAll visit' schemas pointer) (visitAll visit schemas pointer)
      (fun ids b => inv b ∧ ids = (listed pointer schemas).map (·.pointer)) fault := by
  have hall : Agree inv (visitAll visit' schemas pointer) (visitAll visit schemas pointer)
      (fun ids b => inv b ∧ List.Forall₂
        (fun e id => id = Pointer.child pointer (Nat.repr e.2)) schemas.zipIdx ids) fault :=
    .mapM fun e he => h _ (List.mem_map_of_mem he)
  refine hall.mono (fun _ => id) fun ids b hb => ⟨hb.1, ?_⟩
  rw [listed, List.map_map, ← List.forall₂_eq_eq_eq, List.forall₂_map_right_iff]
  exact hb.2.flip

section
variable (hlocal : ∀ e, e.isLocal = true → fault e)
include hlocal

theorem visitProperties_agree {required : List String}
    (h : ∀ t ∈ propertyParts raw pointer, Alike inv fault visit' visit t) :
    Agree inv (visitProperties visit' raw required pointer)
      (visitProperties visit raw required pointer) (fun _ => inv) fault := by
  refine (Agree.lift ((Value.entries_local _).mono hlocal)).bind fun entries => ?_
  intro a ⟨hentries, ha⟩
  have hparts := Value.entries_ok hentries
  refine Agree.mono (Agree.mapM (R := fun _ _ => True) fun e he => ?_) (fun _ => id)
    (fun _ _ hb => hb.1) a ha
  refine (Agree.lift ((Scalar.text_local e.1).mono hlocal)).bind fun text => ?_
  intro b ⟨htext, hb⟩
  have ht : (⟨Pointer.join pointer ["properties", text], e.2⟩ : SchemaPlace) ∈
      propertyParts raw pointer := by
    unfold propertyParts
    rw [hparts]
    exact List.mem_filterMap.2 ⟨e, he, by simp [text_ok htext]⟩
  exact ((h _ ht).bind fun node => .pure fun c hc => ⟨hc.1, trivial⟩) b hb

omit hlocal in
theorem visitAdditional_agree (h : ∀ t ∈ additionalParts raw pointer, Alike inv fault visit' visit t) :
    Agree inv (visitAdditional visit' raw pointer) (visitAdditional visit raw pointer)
      (fun _ => inv) fault := by
  unfold visitAdditional
  unfold additionalParts at h
  cases hfound : found raw "additionalProperties" with
  | map entries =>
    rw [hfound] at h
    exact (h _ (List.mem_singleton_self _)).bind fun id => .pure fun b hb => hb.1
  | list items => exact .pure fun _ => id
  | scalar s => cases s <;> exact .pure fun _ => id

omit hlocal in
theorem visitItems_agree (h : ∀ t ∈ itemParts raw pointer, Alike inv fault visit' visit t) :
    Agree inv (visitItems visit' raw pointer) (visitItems visit raw pointer) (fun _ _ => True)
      fault := by
  unfold visitItems
  unfold itemParts at h
  cases hfound : found raw "items" with
  | list schemas =>
    rw [hfound] at h
    exact (visitAll_agree h).bind fun members =>
      Agree.modify.bind fun _ => .pure fun _ _ => trivial
  | map entries =>
    rw [hfound] at h
    exact (h _ (List.mem_singleton_self _)).bind fun id => .pure fun _ _ => trivial
  | scalar s =>
    rw [hfound] at h
    cases s with
    | null => exact .pure fun _ _ => trivial
    | _ => exact (h _ (List.mem_singleton_self _)).bind fun id => .pure fun _ _ => trivial

theorem single_agree {type : Value}
    (h : ∀ t ∈ formParts raw pointer (singleForm raw type), Alike inv fault visit' visit t) :
    Agree inv (single setting visit' raw pointer type) (single setting visit raw pointer type)
      (fun _ _ => True) fault := by
  unfold single
  refine (Agree.lift ((enumValues_local _ _).mono hlocal)).bind fun values => ?_
  intro a ⟨hvalues, ha⟩
  refine ((Agree.lift ((required_local _ _).mono hlocal)).bind fun required => ?_) a ha
  refine Agree.mono ?_ (fun _ hb => hb.2) fun _ _ => id
  dsimp only
  cases hf : values.filter fun v => !v.isNull with
  | cons first tail => exact .pure fun _ _ => trivial
  | nil =>
    have hform : singleForm raw type = _ := singleForm_of_no_enum hvalues hf
    dsimp only
    split
    · next hobj =>
      rw [hform, if_pos hobj] at h
      refine (visitProperties_agree hlocal fun t ht => h t (List.mem_append_left _ ht)).bind
        fun props => ?_
      refine (visitAdditional_agree fun t ht => h t (List.mem_append_right _ ht)).bind
        fun additional => ?_
      exact .pure fun _ _ => trivial
    · next hobj =>
      rw [if_neg hobj] at hform
      split
      · next harr =>
        rw [hform, if_pos harr] at h
        exact (visitItems_agree h).bind fun items => .pure fun _ _ => trivial
      · exact .pure fun _ _ => trivial

theorem plain_agree (h : ∀ t ∈ plainParts raw pointer, Alike inv fault visit' visit t) :
    Agree inv (plain setting visit' raw pointer) (plain setting visit raw pointer)
      (fun _ _ => True) fault := by
  have hsingle : ∀ type, form raw = singleForm raw type →
      Agree inv (single setting visit' raw pointer type) (single setting visit raw pointer type)
        (fun _ _ => True) fault := by
    intro type hform
    unfold plainParts at h
    rw [hform] at h
    exact single_agree hlocal h
  unfold plain
  cases htype : found raw "type" with
  | list types =>
    dsimp only
    cases hf : types.filter fun t => !t.same (.str "null") with
    | nil => exact hsingle _ (by simp [form, htype, hf])
    | cons first tail =>
      cases tail with
      | nil => exact hsingle _ (by simp [form, htype, hf])
      | cons second tail =>
        have hform : form raw = .types (first :: second :: tail) := by simp [form, htype, hf]
        unfold plainParts at h
        rw [hform] at h
        exact (visitAll_agree h).bind fun members => .pure fun _ _ => trivial
  | map entries => exact hsingle _ (by simp [form, htype])
  | scalar s => exact hsingle _ (by simp [form, htype])

/-! ### References and unions -/

/-- The target of a reference is entered only if it is not being built. -/
theorem reference_agree {ref : Value}
    (h : ∀ t ∈ targetPart setting.doc ref, Agree (fun a => inv a ∧ t.pointer ∉ a.active)
      (visit' t.schema t.pointer) (visit t.schema t.pointer) (fun _ _ => True) fault) :
    Agree inv (reference setting visit' raw ref pointer) (reference setting visit raw ref pointer)
      (fun _ _ => True) fault := by
  unfold reference
  split
  · next ref =>
    refine (Agree.lift ((Pointer.normalize_local ref).mono hlocal)).bind fun target => ?_
    intro a ⟨htarget, ha⟩
    refine (Agree.get.bind fun arena => ?_) a ha
    rintro _ ⟨rfl, ha⟩
    split
    · exact (Agree.modify.bind fun _ => .pure fun _ _ => trivial) arena ha
    · next hnot =>
      have hfree : target ∉ arena.active := fun hmem => hnot (List.contains_iff_mem.2 hmem)
      suffices hrest : Agree (fun a => inv a ∧ target ∉ a.active) _ _ (fun _ _ => True) fault from
        hrest arena ⟨ha, hfree⟩
      refine (Agree.lift ((Document.resolve_local _ _).mono hlocal)).bind fun schema => ?_
      intro b ⟨hschema, hb⟩
      have hpart : (⟨target, schema⟩ : SchemaPlace) ∈ targetPart setting.doc (.str ref) := by
        simp [targetPart, htarget, hschema]
      exact ((h _ hpart).bind fun _ => Agree.modify.bind fun _ => .pure fun _ _ => trivial) b hb
  · exact .throw (hlocal _ rfl)

theorem branches_agree {v : Value} :
    Agree inv (branches v pointer keyword) (branches v pointer keyword)
      (fun schemas b => v = .list schemas ∧ inv b) fault := by
  unfold branches
  split
  · exact .pure fun _ ha => ⟨rfl, ha⟩
  · exact .throw (hlocal _ rfl)

omit hlocal in
theorem visitBranches_agree {schemas : List Value} (hfound : found raw keyword = .list schemas)
    (h : ∀ t ∈ branchParts raw pointer keyword, Alike inv fault visit' visit t) :
    Agree inv (visitAll visit' schemas (Pointer.child pointer keyword))
      (visitAll visit schemas (Pointer.child pointer keyword))
      (fun ids b => inv b ∧ ids = (branchParts raw pointer keyword).map (·.pointer)) fault := by
  unfold branchParts at h ⊢
  rw [hfound] at h ⊢
  exact visitAll_agree h

theorem union_agree (h : ∀ t ∈ branchParts raw pointer keyword, Alike inv fault visit' visit t) :
    Agree inv (union setting visit' raw pointer keyword) (union setting visit raw pointer keyword)
      (fun _ _ => True) fault := by
  refine (branches_agree hlocal).bind fun schemas => ?_
  intro a ⟨hfound, ha⟩
  refine ((visitBranches_agree hfound h).bind fun members => ?_) a ha
  exact (Agree.lift ((discriminator_local _ _).mono hlocal)).bind fun _ => .pure fun _ _ => trivial

/-! ### Compositions -/

/-- The arena is sound, and the schemas at `active` are being built, the innermost first. -/
structure Building (setting : Setting) (roots : List SchemaPlace) (active : List String)
    (a : Arena) : Prop where
  sound : Sound setting roots a
  active : a.active = active

/-- Following the members of a composition fails only if references lead from a member to something that
is being built, or in a circle. -/
theorem completed_faults {a : Arena} (ha : Sound setting roots a) {composing member : String}
    (hactive : ∀ target ∈ a.active, Relation.TransGen (Refers setting.doc roots) member target →
      fault (.schema composing (.stillComposing member target)))
    {fuel : Nat} {seen : List String} {n : Node} (hn : (n.id, n) ∈ a.nodes)
    (hmember : Relation.ReflTransGen (Refers setting.doc roots) member n.id)
    (hpassed : SchemaTable.Passed { nodes := a.nodes } fuel seen) :
    Faults fault (completed a.nodes composing member fuel seen n) := by
  induction fuel generalizing seen n with
  | zero =>
    obtain ⟨rest, hrest⟩ := hpassed.exists_succ
    cases hrest
  | succ fuel ih =>
    unfold completed
    split
    · exact .ok
    · next target ht =>
      have hpath := Relation.TransGen.tail' hmember ((ha.origin hn).refers ht)
      split
      · next hlookup =>
        refine .error (hactive target ?_ hpath)
        have hmentions := ha.mentions hn target (Node.target_mem_mentions ht)
        exact (hmentions.resolve_left (Assoc.lookup_eq_none_iff.1 hlookup)).2
      · next next hlookup =>
        have hmem := Assoc.mem_of_lookup hlookup
        split
        · exact .error (hlocal _ rfl)
        · next hseen =>
          have hnew : target ∉ seen := fun hin => hseen (List.contains_iff_mem.2 hin)
          have hid := ha.id_eq hmem
          refine ih ?_ ?_ (hpassed.step (Assoc.mem_keys_of_mem hmem) hnew)
          · rwa [hid]
          · rw [hid]
            exact hpath.to_reflTransGen

theorem concreteMember_agree {member : String}
    (hactive : ∀ target ∈ p :: rest, Relation.TransGen (Refers setting.doc roots) member target →
      fault (.schema p (.stillComposing member target))) :
    Agree (Building setting roots (p :: rest)) (concreteMember p member) (concreteMember p member)
      (fun _ => Building setting roots (p :: rest)) fault := by
  refine Agree.get.bind fun arena => ?_
  dsimp only
  split
  · next n hlookup =>
    rintro _ ⟨rfl, ha⟩
    have hmem := Assoc.mem_of_lookup hlookup
    have hid := ha.sound.id_eq hmem
    have hstart : SchemaTable.Passed { nodes := arena.nodes } (arena.nodes.length + 3) [] :=
      .start (Nat.lt_add_of_pos_right (by decide))
    have hfaults := completed_faults hlocal ha.sound (ha.active ▸ hactive) (hid ▸ hmem)
      (hid ▸ .refl) (hstart.step (Assoc.mem_keys_of_mem hmem) List.not_mem_nil)
    exact (Agree.lift hfaults).mono (fun _ => id) (fun _ _ hb => hb.2) arena ha
  · exact .throw (hlocal _ rfl)

theorem composition_agree
    (h : ∀ t ∈ branchParts raw p "allOf" ++ plainParts (raw.without ["allOf"]) p,
      Alike (Building setting roots (p :: rest)) fault visit' visit t)
    (hcompose : ∀ m ∈ branchParts raw p "allOf", ∀ target ∈ p :: rest,
      Relation.TransGen (Refers setting.doc roots) m.pointer target →
        fault (.schema p (.stillComposing m.pointer target))) :
    Agree (Building setting roots (p :: rest)) (composition setting visit' raw p)
      (composition setting visit raw p) (fun _ _ => True) fault := by
  refine (branches_agree hlocal).bind fun schemas => ?_
  intro a ⟨hfound, ha⟩
  refine ((visitBranches_agree hfound fun t ht => h t (List.mem_append_left _ ht)).bind
    fun members => ?_) a ha
  rintro b ⟨hb, rfl⟩
  have hmembers : Agree (Building setting roots (p :: rest))
      (((branchParts raw p "allOf").map (·.pointer)).mapM (concreteMember p))
      (((branchParts raw p "allOf").map (·.pointer)).mapM (concreteMember p))
      (fun fragments t => Building setting roots (p :: rest) t ∧
        List.Forall₂ (fun _ _ => True) ((branchParts raw p "allOf").map (·.pointer)) fragments)
      fault := by
    refine Agree.mapM fun id hid => ?_
    obtain ⟨m, hm, rfl⟩ := List.mem_map.1 hid
    exact (concreteMember_agree hlocal (hcompose m hm)).mono (fun _ => id) fun _ _ ht => ⟨ht, trivial⟩
  refine (hmembers.bind fun fragments => ?_) b hb
  -- once the members are complete, only their merging can fail
  have hmerge : ∀ fragments, Agree (fun _ => True)
      (do
        let merged ← Merge.merge setting.policy p fragments
        return composed setting raw p merged (← discriminator raw p) : Build Node)
      (do
        let merged ← Merge.merge setting.policy p fragments
        return composed setting raw p merged (← discriminator raw p) : Build Node)
      (fun _ _ => True) fault := by
    intro fragments
    refine (Agree.lift ((Merge.merge_local _ _ _).mono hlocal)).bind fun merged => ?_
    refine (Agree.lift ((discriminator_local _ _).mono hlocal)).bind fun _ => ?_
    exact .pure fun _ _ => trivial
  dsimp only
  split
  · exact (Agree.lift ((discriminator_local _ _).mono hlocal)).bind fun _ => .pure fun _ _ => trivial
  · split
    · have hplain : ∀ t ∈ plainParts (raw.without ["allOf"]) p,
          Alike (Building setting roots (p :: rest)) fault visit' visit t :=
        fun t ht => h t (List.mem_append_right _ ht)
      refine ((plain_agree hlocal hplain).mono (fun _ ht => ht.1) fun _ _ => id).bind fun node => ?_
      exact hmerge (node :: fragments)
    · exact (hmerge fragments).mono (fun _ _ => trivial) fun _ _ => id

theorem build_agree
    (href : ∀ ref, raw.get? "$ref" = some ref → ∀ t ∈ targetPart setting.doc ref,
      Agree (fun a => Building setting roots (p :: rest) a ∧ t.pointer ∉ a.active)
        (visit' t.schema t.pointer) (visit t.schema t.pointer) (fun _ _ => True) fault)
    (hparts : raw.get? "$ref" = none → ∀ t ∈ parts setting.doc raw p,
      Alike (Building setting roots (p :: rest)) fault visit' visit t)
    (hcompose : raw.get? "$ref" = none → raw.has "allOf" = true →
      ∀ m ∈ branchParts raw p "allOf", ∀ target ∈ p :: rest,
        Relation.TransGen (Refers setting.doc roots) m.pointer target →
          fault (.schema p (.stillComposing m.pointer target))) :
    Agree (Building setting roots (p :: rest)) (build setting visit' raw p) (build setting visit raw p)
      (fun _ _ => True) fault := by
  unfold build
  unfold parts at hparts
  split
  · next ref hraw => exact reference_agree hlocal (href ref hraw)
  · next hraw =>
    have hparts := hparts hraw
    rw [hraw] at hparts
    dsimp only at hparts
    split
    · next hall =>
      rw [if_pos hall] at hparts
      exact composition_agree hlocal hparts (hcompose hraw hall)
    · next hall =>
      rw [if_neg hall] at hparts
      split
      · next hone =>
        rw [if_pos hone] at hparts
        exact union_agree hlocal hparts
      · next hone =>
        rw [if_neg hone] at hparts
        split
        · next hany =>
          rw [if_pos hany] at hparts
          exact union_agree hlocal hparts
        · next hany =>
          rw [if_neg hany] at hparts
          exact plain_agree hlocal hparts

/-! ### Entering schemas -/

/-- Enters a schema, and its parts through `visit`. -/
def enterWith (setting : Setting) (visit : Visit) : Visit := fun raw pointer => do
  let arena ← get
  if Assoc.has arena.nodes pointer then return pointer
  if arena.active.contains pointer then fail pointer .containsItself
  match schemaEntries? raw with
  | none => fail pointer .notAnObject
  | some entries =>
    set { arena with
      pointers := Assoc.insert arena.pointers pointer pointer
      active := pointer :: arena.active }
    let node ← build setting visit entries pointer
    modify fun a => { a with
      active := a.active.erase pointer
      nodes := Assoc.insert a.nodes pointer node }
    return pointer

omit hlocal in
theorem enter_succ (fuel : Nat) :
    enter setting (fuel + 1) = enterWith setting (enter setting fuel) := rfl

theorem enterWith_agree {s : SchemaPlace} {active : List String} (hs : Reads setting.doc roots s)
    (hself : s.pointer ∈ active → fault (.schema s.pointer .containsItself))
    (hbuild : s.pointer ∉ active → ∀ raw, schemaEntries? s.schema = some raw →
      Agree (Building setting roots (s.pointer :: active)) (build setting visit' raw s.pointer)
        (build setting visit raw s.pointer) (fun _ _ => True) fault) :
    Agree (Building setting roots active) (enterWith setting visit' s.schema s.pointer)
      (enterWith setting visit s.schema s.pointer) (fun _ _ => True) fault := by
  refine Agree.get.bind fun arena => ?_
  split
  · exact .pure fun _ _ => trivial
  · next hhas =>
    have hkey : s.pointer ∉ Assoc.keys arena.nodes := fun hmem => hhas (Assoc.has_iff.2 hmem)
    by_cases hin : arena.active.contains s.pointer = true
    · rw [if_pos hin, if_pos hin]
      rintro _ ⟨rfl, ha⟩
      have hfault := hself (ha.active ▸ List.contains_iff_mem.1 hin)
      exact (Agree.throw hfault).bind (fun _ _ => False.elim) arena ha
    · rw [if_neg hin, if_neg hin]
      split
      · exact .throw (hlocal _ rfl)
      · next raw hraw =>
        rintro _ ⟨rfl, ha⟩
        have hnot : s.pointer ∉ active :=
          fun hmem => hin (List.contains_iff_mem.2 (ha.active ▸ hmem))
        have hpush : Building setting roots (s.pointer :: active) { arena with
            pointers := Assoc.insert arena.pointers s.pointer s.pointer
            active := s.pointer :: arena.active } :=
          ⟨ha.sound.push hkey ⟨s, raw, hs, rfl, hraw⟩, congrArg _ ha.active⟩
        suffices hrun : Agree (fun _ => True) _ _ _ fault from hrun arena trivial
        refine Agree.set.bind fun _ => ?_
        refine Agree.bind ((hbuild hnot raw hraw).mono ?_ fun _ _ => id) fun node => ?_
        · rintro b rfl
          exact hpush
        · exact Agree.modify.bind fun _ => .pure fun _ _ => trivial

omit hlocal in
/-- Entering a schema leaves being built what was being built. -/
theorem Keeps.alike (hv : Keeps setting roots visit) {s : SchemaPlace} {active : List String}
    (hs : Reads setting.doc roots s)
    (h : Agree (Building setting roots active) (visit' s.schema s.pointer)
      (visit s.schema s.pointer) (fun _ _ => True) fault) :
    Alike (Building setting roots active) fault visit' visit s := by
  intro a ha
  obtain ⟨heq, hfault, -⟩ := h a ha
  refine ⟨heq, hfault, fun id b hb => ?_⟩
  obtain ⟨hsound, hgrows, hid, -⟩ := hv s hs a id b ha.sound hb
  exact ⟨⟨hsound, hgrows.active.trans ha.active⟩, hid⟩

end

end OpenApi.Resolve
