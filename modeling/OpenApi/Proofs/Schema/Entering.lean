import OpenApi.Proofs.Schema.Building

/-!
References, unions, compositions, and entering schemas. Entering keeps arenas sound whatever the fuel,
so the arena is sound once all schemas of a document have been entered.
-/
namespace OpenApi.Resolve

open Outcome (run_bind run_pure run_lift run_modify run_get run_throw)

variable {setting : Setting} {roots : List SchemaPlace} {visit : Visit} {a b : Arena}
  {p keyword composing : String} {rest : List String} {t : Arena} {n : Node} {s : SchemaPlace}
  {raw : Entries} {schemas : List Value}

/-- What building the schema at a place comes to, with `rest` being built around it. -/
structure Builds (setting : Setting) (roots : List SchemaPlace) (p : String) (rest : List String)
    (a b : Arena) (n : Node) : Prop where
  sound : Sound setting roots b
  grows : Grows setting roots rest a b
  id : n.id = p
  origin : Origin setting roots n
  stored : n.isMarker = false → Stored b n
  marker : n.isMarker = true → ∀ m ∈ n.mentions, m ∈ p :: rest
  target : n.isMarker = false → ∀ t ∈ n.target, t ∉ p :: rest

theorem Builds.of_grows (h : Builds setting roots p rest t b n) (hg : Grows setting roots rest a t) :
    Builds setting roots p rest a b n :=
  { h with grows := hg.trans h.grows }

theorem Grows.note (a : Arena) (held : List String) (ref target : String) :
    Grows setting roots held a { a with pointers := Assoc.insertNew a.pointers ref target } :=
  ⟨fun _ hk => hk, rfl, fun _ _ hmem => .inl hmem⟩

theorem Keeps.reference (hv : Keeps setting roots visit) {ref : Value} (hs : Reads setting.doc roots s)
    (hraw : schemaEntries? s.schema = some raw) (href : raw.get? "$ref" = some ref)
    (hread : ∀ t ∈ targetPart setting.doc ref, Reads setting.doc roots t) (ha : Sound setting roots a)
    (hact : a.active = s.pointer :: rest) (h : reference setting visit raw ref s.pointer a = .ok (n, b)) :
    Builds setting roots s.pointer rest a b n := by
  unfold Resolve.reference at h
  split at h
  · next ref =>
    obtain ⟨target, t, hlift, h⟩ := run_bind.1 h
    obtain ⟨htarget, rfl⟩ := run_lift.1 hlift
    obtain ⟨arena, t, hget, h⟩ := run_bind.1 h
    obtain ⟨rfl, rfl⟩ := run_get.1 hget
    split at h
    · -- the target is being built: a marker
      next hin =>
      obtain ⟨_, t, hnote, h⟩ := run_bind.1 h
      obtain ⟨rfl, rfl⟩ := run_pure.1 h
      have hmem : target ∈ a.active := List.contains_iff_mem.1 hin
      rw [← run_modify.1 hnote]
      refine ⟨ha.note (.inr hmem), .note .., rfl, .marker hs hraw href htarget,
        (fun hmark => by cases hmark), ?_, (fun hmark => by cases hmark)⟩
      intro _ m hm
      have hm : m = target := by simpa [Node.mentions, common, Additional.toList] using hm
      rw [hm, ← hact]
      exact hmem
    · -- the target is built first, and is stored when the reference is made
      next hnot =>
      obtain ⟨schema, t, hlift, h⟩ := run_bind.1 h
      obtain ⟨hschema, rfl⟩ := run_lift.1 hlift
      obtain ⟨id, t, hvisit, h⟩ := run_bind.1 h
      obtain ⟨_, u, hnote, h⟩ := run_bind.1 h
      obtain ⟨rfl, rfl⟩ := run_pure.1 h
      have hpart : (⟨target, schema⟩ : SchemaPlace) ∈ targetPart setting.doc (.str ref) := by
        simp [targetPart, htarget, hschema]
      obtain ⟨ht, hg, hid, hmem⟩ := hv _ (hread _ hpart) a id t ha hvisit
      have hid : id = target := hid
      rw [hid] at hmem
      rw [← run_modify.1 hnote]
      refine ⟨ht.note (.inl hmem), ?_, rfl, .reference hs hraw href htarget, ?_,
        (fun hmark => by cases hmark), ?_⟩
      · exact (hg.of_active hact).trans (.note ..)
      · intro _ m hm
        have hm : m = target := by simpa [Node.mentions, common, Additional.toList] using hm
        rw [hm]
        exact hmem
      · rintro _ _ ⟨⟩ hin
        rw [← hact] at hin
        exact hnot (List.contains_iff_mem.2 hin)
  · cases h

theorem branches_ok {v : Value} (h : branches v p keyword a = .ok (schemas, b)) :
    v = .list schemas ∧ a = b := by
  unfold branches at h
  split at h
  · obtain ⟨rfl, rfl⟩ := run_pure.1 h
    exact ⟨rfl, rfl⟩
  · cases h

theorem Keeps.branches (hv : Keeps setting roots visit) {members : List String}
    (hread : ∀ t ∈ branchParts raw p keyword, Reads setting.doc roots t) (ha : Sound setting roots a)
    (hb : branches (found raw keyword) p keyword a = .ok (schemas, t))
    (hm : Resolve.visitAll visit schemas (Pointer.child p keyword) t = .ok (members, b)) :
    Sound setting roots b ∧ Grows setting roots a.active a b ∧
      members = (branchParts raw p keyword).map (·.pointer) ∧
      ∀ id ∈ members, id ∈ Assoc.keys b.nodes := by
  obtain ⟨hlist, rfl⟩ := branches_ok hb
  unfold branchParts at hread ⊢
  rw [hlist] at hread ⊢
  exact hv.visitAll hread ha hm

theorem Keeps.union (hv : Keeps setting roots visit) (hs : Reads setting.doc roots s)
    (hraw : schemaEntries? s.schema = some raw) (hshape : shape raw = .union)
    (hread : ∀ t ∈ branchParts raw s.pointer keyword, Reads setting.doc roots t)
    (ha : Sound setting roots a) (hact : a.active = s.pointer :: rest)
    (h : union setting visit raw s.pointer keyword a = .ok (n, b)) :
    Builds setting roots s.pointer rest a b n := by
  unfold Resolve.union at h
  obtain ⟨schemas, t, hschemas, h⟩ := run_bind.1 h
  obtain ⟨members, u, hmembers, h⟩ := run_bind.1 h
  obtain ⟨disc, u', hlift, h⟩ := run_bind.1 h
  obtain ⟨-, rfl⟩ := run_lift.1 hlift
  obtain ⟨rfl, rfl⟩ := run_pure.1 h
  obtain ⟨hu, hg, -, hm⟩ := hv.branches hread ha hschemas hmembers
  refine ⟨hu, hg.of_active hact, rfl, .union hs hraw hshape members keyword disc, ?_,
    (fun hmark => by cases hmark), fun _ _ ht => by cases ht⟩
  intro _ m hmem
  apply hm
  simpa [Node.mentions, common, Additional.toList] using hmem

/-- Following targets ends at a stored node without one, and goes where references lead. -/
theorem completed_ok (ha : Sound setting roots a) {member : String} {fuel : Nat} {seen : List String}
    {m : Node} (hn : (n.id, n) ∈ a.nodes) (h : completed a.nodes composing member fuel seen n = .ok m) :
    LeadsTo setting.doc roots n.id m ∧ ∃ k, (k, m) ∈ a.nodes := by
  induction fuel generalizing seen n with
  | zero => cases h
  | succ fuel ih =>
    unfold completed at h
    split at h
    · next htarget =>
      cases h
      exact ⟨⟨.refl, htarget⟩, _, hn⟩
    · next target htarget =>
      split at h
      · cases h
      · next next hlookup =>
        split at h
        · cases h
        · have hmem := Assoc.mem_of_lookup hlookup
          have hid := ha.id_eq hmem
          have hrefers := (ha.origin hn).refers htarget
          rw [← hid] at hmem hrefers
          obtain ⟨hleads, hm⟩ := ih hmem h
          exact ⟨⟨.head hrefers hleads.path, hleads.target⟩, hm⟩

theorem concreteMember_ok (ha : Sound setting roots a) {member : String} {m : Node}
    (h : concreteMember composing member a = .ok (m, b)) :
    a = b ∧ LeadsTo setting.doc roots member m ∧ ∃ k, (k, m) ∈ a.nodes := by
  unfold concreteMember at h
  obtain ⟨arena, t, hget, h⟩ := run_bind.1 h
  obtain ⟨rfl, rfl⟩ := run_get.1 hget
  cases hlookup : a.nodes.lookup member with
  | none =>
    rw [hlookup] at h
    cases h
  | some n =>
    rw [hlookup] at h
    obtain ⟨hc, rfl⟩ := run_lift.1 h
    have hmem := Assoc.mem_of_lookup hlookup
    have hid := ha.id_eq hmem
    rw [← hid] at hmem ⊢
    exact ⟨rfl, completed_ok ha hmem hc⟩

theorem concreteMembers_ok (ha : Sound setting roots a) {members : List String} {fragments : List Node}
    (h : members.mapM (concreteMember composing) a = .ok (fragments, b)) :
    a = b ∧ List.Forall₂ (fun member f => LeadsTo setting.doc roots member f ∧ ∃ k, (k, f) ∈ a.nodes)
      members fragments := by
  obtain ⟨rfl, -, hall⟩ := Outcome.run_mapM (fun t => t = a) (fun _ _ => True)
    (fun member (f : Node) _ => LeadsTo setting.doc roots member f ∧ ∃ k, (k, f) ∈ a.nodes)
    (fun _ => trivial) (fun _ _ _ _ _ => trivial) (fun _ _ _ _ _ h => h)
    (by
      rintro member - _ f u rfl hf
      obtain ⟨rfl, hm⟩ := concreteMember_ok ha hf
      exact ⟨rfl, trivial, hm⟩) rfl h
  exact ⟨rfl, hall⟩

/-- Merging the parts of a composition, with what stands beside it as the first of them. -/
theorem Sound.mergeAll {u : Arena} {stored : List Node} (beside : Option Node)
    (hs : Reads setting.doc roots s) (hraw : schemaEntries? s.schema = some raw)
    (hshape : shape raw = .composition) (hlist : found raw "allOf" = .list schemas)
    (horigin : ∀ f ∈ stored, Origin setting roots f)
    (hleads : List.Forall₂ (fun t f => LeadsTo setting.doc roots t.pointer f)
      (branchParts raw s.pointer "allOf") stored) (hflat : ∀ f ∈ stored, f.isComposed = false)
    (hstored : ∀ f ∈ stored, Stored a f) (ht : Sound setting roots t)
    (hg : Grows setting roots rest a t)
    (hbeside : ∀ f ∈ beside, Plain setting (raw.without ["allOf"]) s.pointer f ∧ Stored t f)
    (hpresent : beside.isSome = isStructural (raw.without ["allOf"]))
    (h : (do
      let merged ← Merge.merge setting.policy s.pointer (beside.toList ++ stored)
      return composed setting raw s.pointer merged (← discriminator raw s.pointer) : Build Node) t =
        .ok (n, u)) :
    Builds setting roots s.pointer rest a u n := by
  obtain ⟨merged, t', hlift, h⟩ := run_bind.1 h
  obtain ⟨hmerged, rfl⟩ := run_lift.1 hlift
  obtain ⟨disc, t', hlift, h⟩ := run_bind.1 h
  obtain ⟨-, rfl⟩ := run_lift.1 hlift
  obtain ⟨rfl, rfl⟩ := run_pure.1 h
  have hm := Merge.merged_of_merge hmerged
  refine ⟨ht, hg, hm.id, ?_, ?_, ?_, ?_⟩
  · exact .merged hs hraw hshape hlist horigin hleads hflat (fun f hf => (hbeside f hf).1) hpresent
      hmerged disc
  · intro _ m hmem
    obtain ⟨f, hf, hmem⟩ := hm.mentions m hmem
    rcases List.mem_append.1 hf with hf | hf
    · exact (hbeside f (Option.mem_toList.1 hf)).2 m hmem
    · exact hg.keys m (hstored f hf m hmem)
  · intro hmark
    have hk := hm.kind
    simp only [Node.isMarker, composed] at hmark
    rcases hk with hk | hk | hk | hk <;> rw [hk] at hmark <;> cases hmark
  · intro _ target ht
    have hnone : merged.target = none := hm.target
    cases hnone.symm.trans ht

theorem Keeps.composition (hv : Keeps setting roots visit) (hs : Reads setting.doc roots s)
    (hraw : schemaEntries? s.schema = some raw) (hshape : shape raw = .composition)
    (hread : ∀ t ∈ branchParts raw s.pointer "allOf" ++ plainParts (raw.without ["allOf"]) s.pointer,
      Reads setting.doc roots t) (ha : Sound setting roots a) (hact : a.active = s.pointer :: rest)
    (hp : s.pointer ∉ rest)
    (hfree : plainTuple (raw.without ["allOf"]) = true → TuplesApart setting.doc roots →
      Pointer.child s.pointer "items" ∉ Assoc.keys a.nodes ∧
        ¬ Entered setting.doc roots (Pointer.child s.pointer "items"))
    (h : composition setting visit raw s.pointer a = .ok (n, b)) :
    Builds setting roots s.pointer rest a b n := by
  unfold Resolve.composition at h
  obtain ⟨schemas, t, hschemas, h⟩ := run_bind.1 h
  obtain ⟨members, t, hmembers, h⟩ := run_bind.1 h
  obtain ⟨fragments, t', hfragments, h⟩ := run_bind.1 h
  obtain ⟨ht, hg, hplaces, hm⟩ :=
    hv.branches (fun t ht => hread t (List.mem_append_left _ ht)) ha hschemas hmembers
  obtain ⟨rfl, hall⟩ := concreteMembers_ok ht hfragments
  have hlist := (branches_ok hschemas).1
  have hfragment : ∀ f ∈ fragments, f.target = none ∧ ∃ k, (k, f) ∈ t.nodes :=
    Outcome.forall_mem_of_forall₂ (hall.imp fun _ _ hf => ⟨hf.1.target, hf.2⟩)
  have hleads : List.Forall₂ (fun t f => LeadsTo setting.doc roots t.pointer f)
      (branchParts raw s.pointer "allOf") fragments := by
    rw [hplaces, List.forall₂_map_left_iff] at hall
    exact hall.imp fun _ _ hf => hf.1
  -- fragments are stored and are no markers, so all that they mention is stored
  have horigin : ∀ f ∈ fragments, Origin setting roots f := by
    intro f hf
    obtain ⟨-, k, hk⟩ := hfragment f hf
    exact ht.origin hk
  have hstored : ∀ f ∈ fragments, Stored t f := by
    intro f hf m hmem
    obtain ⟨htarget, k, hk⟩ := hfragment f hf
    have hmark := (horigin f hf).isMarker_of_target htarget
    rcases ht.mentions hk m hmem with hin | ⟨hcontra, -⟩
    · exact hin
    · rw [hmark] at hcontra
      cases hcontra
  dsimp only at h
  split at h
  · -- a union or an intersection among the parts
    next hany =>
    obtain ⟨disc, u, hlift, h⟩ := run_bind.1 h
    obtain ⟨-, rfl⟩ := run_lift.1 hlift
    obtain ⟨rfl, rfl⟩ := run_pure.1 h
    obtain ⟨f, hf, hcomposed⟩ := List.any_eq_true.1 hany
    obtain ⟨part, hpart, hlead⟩ := Outcome.exists_mem_of_forall₂ hleads.flip hf
    subst hplaces
    refine ⟨ht, hg.of_active hact, rfl,
      .intersection hs hraw hshape hpart (horigin f hf) hlead hcomposed disc, ?_,
      (fun hmark => by cases hmark), fun _ _ ht => by cases ht⟩
    intro _ m hmem
    apply hm
    simpa [Node.mentions, common, Additional.toList] using hmem
  · -- everything is merged, with what stands beside the composition
    have hheld : s.pointer ∈ a.active := by
      rw [hact]
      exact List.mem_cons_self ..
    next hnone =>
    have hflat : ∀ f ∈ fragments, f.isComposed = false := by
      intro f hf
      rw [Bool.not_eq_true, List.any_eq_false] at hnone
      exact Bool.not_eq_true _ ▸ hnone f hf
    split at h
    · next hpresent =>
      obtain ⟨f, u, hplain, h⟩ := run_bind.1 h
      obtain ⟨all, u, hall, h⟩ := run_bind.1 h
      obtain ⟨rfl, rfl⟩ := run_pure.1 hall
      obtain ⟨hu, hg', hpl, hst⟩ :=
        hv.plain (fun t ht => hread t (List.mem_append_right _ ht)) ht (hg.active.trans hact) hp
          (fun htuple hap => hg.free_of_held hheld (hfree htuple hap)) hplain
      have hmerged := Sound.mergeAll (some f) hs hraw hshape hlist horigin hleads hflat hstored hu hg'
        (by
          rintro _ ⟨⟩
          exact ⟨hpl, hst⟩) hpresent.symm h
      exact hmerged.of_grows (hg.of_active hact)
    · next habsent =>
      obtain ⟨all, u, hall, h⟩ := run_bind.1 h
      obtain ⟨rfl, rfl⟩ := run_pure.1 hall
      have hrefl : Grows setting roots rest t t := .refl t
      have hmerged := Sound.mergeAll none hs hraw hshape hlist horigin hleads hflat hstored ht hrefl
        (fun _ hf => by cases hf) (Bool.not_eq_true _ ▸ habsent).symm h
      exact hmerged.of_grows (hg.of_active hact)

theorem Keeps.build (hv : Keeps setting roots visit) (hs : Reads setting.doc roots s)
    (hraw : schemaEntries? s.schema = some raw) (ha : Sound setting roots a)
    (hact : a.active = s.pointer :: rest) (hp : s.pointer ∉ rest)
    (hfree : TuplesApart setting.doc roots → Pointer.child s.pointer "items" ∈ Assoc.keys a.nodes →
      Entered setting.doc roots (Pointer.child s.pointer "items"))
    (h : build setting visit raw s.pointer a = .ok (n, b)) :
    Builds setting roots s.pointer rest a b n := by
  have hread : ∀ t ∈ parts setting.doc raw s.pointer, Reads setting.doc roots t :=
    fun t ht => .part hs hraw ht
  -- listed items keep their place to themselves
  have hfree' : hasTuple raw = true → TuplesApart setting.doc roots →
      Pointer.child s.pointer "items" ∉ Assoc.keys a.nodes ∧
        ¬ Entered setting.doc roots (Pointer.child s.pointer "items") := by
    intro htuple hap
    have hent := hap s raw hs hraw htuple
    exact ⟨fun hin => hent (hfree hap hin), hent⟩
  unfold parts at hread
  unfold hasTuple at hfree'
  unfold Resolve.build at h
  cases href : raw.get? "$ref" with
  | some ref =>
    rw [href] at h hread
    exact hv.reference hs hraw href hread ha hact h
  | none =>
    have hhas : ¬ raw.has "$ref" = true := by simp [Entries.has, href]
    rw [href] at h hread
    rw [if_neg hhas] at hfree'
    dsimp only at h hread
    split at h
    · next hall =>
      rw [if_pos hall] at hread hfree'
      exact hv.composition hs hraw (by simp [shape, hhas, hall]) hread ha hact hp hfree' h
    · next hall =>
      rw [if_neg hall] at hread hfree'
      split at h
      · next hone =>
        rw [if_pos hone] at hread
        exact hv.union hs hraw (by simp [shape, hhas, hall, hone]) hread ha hact h
      · next hone =>
        rw [if_neg hone] at hread
        split at h
        · next hany =>
          rw [if_pos hany] at hread
          exact hv.union hs hraw (by simp [shape, hhas, hall, hany]) hread ha hact h
        · next hany =>
          rw [if_neg hany] at hread
          rw [if_neg (by simp [hone, hany])] at hfree'
          obtain ⟨hb, hg, hpl, hst⟩ := hv.plain hread ha hact hp hfree' h
          have horigin : Origin setting roots n :=
            .plain hs hraw (by simp [shape, hhas, hall, hone, hany]) hpl
          have hmark := horigin.isMarker_of_target hpl.target_eq_none
          refine ⟨hb, hg, hpl.id_eq, horigin, fun _ => hst, ?_, ?_⟩
          · intro htrue
            rw [hmark] at htrue
            cases htrue
          · rw [hpl.target_eq_none]
            exact fun _ _ ht => by cases ht

/-! ### Entering schemas -/

/-- Where a schema is entered anew, listed items below it cannot be stored yet. -/
theorem Sound.entered_of_mem (ha : Sound setting roots a) (hkey : p ∉ Assoc.keys a.nodes)
    (hactive : p ∉ a.active) (hmem : Pointer.child p "items" ∈ Assoc.keys a.nodes) :
    Entered setting.doc roots (Pointer.child p "items") := by
  rcases ha.key_entered _ hmem with hent | ⟨q, hq, hin⟩
  · exact hent
  · rw [← Pointer.child_inj_left hq] at hin
    rcases hin with hin | hin
    · exact absurd hin hkey
    · exact absurd hin hactive

/-- Storing the node of a schema once it is built. -/
theorem Builds.store {u : Arena} (h : Builds setting roots p a.active t u n)
    (hnodes : t.nodes = a.nodes) (hact : t.active = p :: a.active) (hp : p ∉ a.active)
    (hent : Entered setting.doc roots p) :
    let b : Arena := { u with
      active := u.active.erase p
      nodes := Assoc.insert u.nodes p n }
    Sound setting roots b ∧ Grows setting roots a.active a b ∧ p ∈ Assoc.keys b.nodes := by
  have hactive : u.active = p :: a.active := h.grows.active.trans hact
  have hmem : p ∈ u.active := by
    rw [hactive]
    exact List.mem_cons_self ..
  have herase : u.active.erase p = a.active := by
    rw [hactive]
    exact List.erase_cons_head ..
  intro b
  have hb : b = { nodes := Assoc.insert u.nodes p n, pointers := u.pointers, active := a.active } := by
    simp only [b, herase]
  rw [hb]
  refine ⟨h.sound.store h.id h.origin ?_ ?_ (.inl hent) h.stored h.marker (hactive ▸ h.target)
    (.inr hmem) ?_ ?_ ?_, ?_, Assoc.mem_keys_insert.2 (.inr rfl)⟩
  · intro j hj
    rw [hactive] at hj
    exact List.mem_cons.1 hj
  · intro j hj
    rw [hactive]
    exact List.mem_cons_of_mem _ hj
  · -- what is being built has not been stored meanwhile
    exact fun hap => ⟨h.sound.active_free hap p hmem, hp⟩
  · exact fun r j hj => .inl hj
  · rintro j (rfl | hj)
    · exact h.sound.pointer_self (.inr hmem)
    · exact hj
  · refine ⟨fun k hk => Assoc.mem_keys_insert.2 (.inl (h.grows.keys k (hnodes ▸ hk))), rfl, ?_⟩
    intro q hq hitems
    rcases Assoc.mem_keys_insert.1 hitems with hitems | heq
    · exact hnodes ▸ h.grows.held q hq hitems
    · exact .inr (heq ▸ hent)

theorem keeps_enter (setting : Setting) (roots : List SchemaPlace) (fuel : Nat) :
    Keeps setting roots (enter setting fuel) := by
  induction fuel with
  | zero =>
    intro s _ a id b _ h
    exact (run_throw.1 h).elim
  | succ fuel ih =>
    intro s hs a id b ha h
    unfold enter at h
    obtain ⟨arena, t, hget, h⟩ := run_bind.1 h
    obtain ⟨rfl, rfl⟩ := run_get.1 hget
    split at h
    · next hhas =>
      obtain ⟨rfl, rfl⟩ := run_pure.1 h
      exact ⟨ha, .refl _, rfl, Assoc.has_iff.1 hhas⟩
    · next hhas =>
      have hkey : s.pointer ∉ Assoc.keys a.nodes := fun hmem => hhas (Assoc.has_iff.2 hmem)
      by_cases hcontains : a.active.contains s.pointer = true
      · rw [if_pos hcontains] at h
        obtain ⟨_, _, hfail, -⟩ := run_bind.1 h
        exact (run_throw.1 hfail).elim
      · rw [if_neg hcontains] at h
        have hactive : s.pointer ∉ a.active :=
          fun hmem => hcontains (List.contains_iff_mem.2 hmem)
        cases hraw : schemaEntries? s.schema with
        | none =>
          rw [hraw] at h
          exact (run_throw.1 h).elim
        | some raw =>
          rw [hraw] at h
          obtain ⟨_, t, hset, h⟩ := run_bind.1 h
          obtain ⟨n, u, hbuild, h⟩ := run_bind.1 h
          obtain ⟨_, v, hmod, h⟩ := run_bind.1 h
          obtain ⟨rfl, rfl⟩ := run_pure.1 h
          have hent : Entered setting.doc roots s.pointer := ⟨s, raw, hs, rfl, hraw⟩
          rw [← Outcome.run_set.1 hset] at hbuild
          have hb := ih.build hs hraw (ha.push hkey hent) rfl hactive
            (fun _ => ha.entered_of_mem hkey hactive) hbuild
          rw [← run_modify.1 hmod]
          obtain ⟨hv, hg, hmem⟩ := hb.store rfl rfl hactive hent
          exact ⟨hv, hg, rfl, hmem⟩

/-- Entering all places of a document leaves nothing to build; the ids are those of the places. -/
theorem sound_enterAll {roots : List SchemaPlace} {ids : List String}
    (h : enterAll setting roots {} = .ok (ids, b)) :
    Sound setting roots b ∧ b.active = [] ∧ ids = Assoc.distinct (roots.map (·.pointer)) ∧
      ∀ s ∈ roots, s.pointer ∈ Assoc.keys b.nodes := by
  unfold enterAll at h
  obtain ⟨all, t, hall, h⟩ := run_bind.1 h
  obtain ⟨rfl, rfl⟩ := run_pure.1 h
  obtain ⟨ht, hg, hids⟩ := Sound.mapM
    (fun (s : SchemaPlace) id t => id = s.pointer ∧ id ∈ Assoc.keys t.nodes)
    (fun _ _ _ _ hsub hid => ⟨hid.1, hsub _ hid.2⟩)
    (fun s hs t id u ht hf => keeps_enter setting roots _ s (.root hs) t id u ht hf)
    Sound.empty hall
  refine ⟨ht, hg.active, ?_, fun s hs => ?_⟩
  · have hall : all = roots.map (·.pointer) := by
      rw [← List.forall₂_eq_eq_eq, List.forall₂_map_right_iff]
      exact (hids.imp fun s id hid => hid.1).flip
    rw [hall]
  · obtain ⟨id, -, hid, hmem⟩ := Outcome.exists_mem_of_forall₂ hids hs
    exact hid ▸ hmem

end OpenApi.Resolve
