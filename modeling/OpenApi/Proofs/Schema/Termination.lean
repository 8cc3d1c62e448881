import Mathlib.Data.Set.Finite.Lattice
import Mathlib.Logic.Relation
import OpenApi.Proofs.Schema.Runs
import OpenApi.Proofs.Schema.Trails

/-!
Resolving ends. Schemas inside a schema get smaller, and a reference is followed only to a place that is
not being built, of which the document names finitely many. So no bound on the depth above
`depthBound` is ever reached. Entering can be watched: building begins at no place twice, and only at
places from a finite list.
-/
namespace OpenApi
namespace Resolve

variable {doc : Value} {roots : List SchemaPlace} {setting : Setting}

/-! ### Finitely many places -/

theorem finite_inside (s : SchemaPlace) : {t | Inside doc s t}.Finite := by
  cases hraw : schemaEntries? s.schema with
  | none =>
    refine Set.Finite.subset Set.finite_empty ?_
    rintro t ⟨raw, hs, -, -⟩
    rw [hraw] at hs
    cases hs
  | some raw =>
    refine (List.finite_toSet (parts doc raw s.pointer)).subset ?_
    rintro t ⟨raw', hs, -, ht⟩
    rw [hraw] at hs
    obtain rfl := Option.some.inj hs
    exact ht

/-- The schemas inside a schema, at any depth. -/
theorem finite_inside_all {s : SchemaPlace} (hs : Drawn doc s.schema) :
    {t | Relation.ReflTransGen (Inside doc) s t}.Finite := by
  induction hsize : s.schema.size using Nat.strong_induction_on generalizing s with
  | _ size ih =>
    have hparts : (⋃ u ∈ {u | Inside doc s u}, {t | Relation.ReflTransGen (Inside doc) u t}).Finite := by
      refine Set.Finite.biUnion (finite_inside s) fun u hu => ?_
      obtain ⟨hdrawn, hlt⟩ := Inside.size_lt hu hs
      exact ih _ (hsize ▸ hlt) hdrawn rfl
    refine ((Set.finite_singleton s).union hparts).subset ?_
    intro t ht
    rcases Relation.ReflTransGen.cases_head ht with rfl | ⟨u, hu, hut⟩
    · exact .inl rfl
    · exact .inr (Set.mem_biUnion hu hut)

theorem finite_targets (doc : Value) : {t : SchemaPlace | t.pointer ∈ Document.targets doc ∧
    Document.resolve doc t.pointer = .ok t.schema}.Finite := by
  have heach : ∀ p ∈ Document.targets doc,
      {t : SchemaPlace | t.pointer = p ∧ Document.resolve doc t.pointer = .ok t.schema}.Finite := by
    intro p _
    refine Set.Subsingleton.finite ?_
    rintro ⟨_, v⟩ ⟨rfl, hv⟩ ⟨_, w⟩ ⟨rfl, hw⟩
    exact congrArg _ (Except.ok.inj (hv.symm.trans hw))
  refine (Set.Finite.biUnion (List.finite_toSet (Document.targets doc)) heach).subset ?_
  rintro t ⟨hp, ht⟩
  exact Set.mem_biUnion hp ⟨rfl, ht⟩

/-- Whatever is read stands inside a root or inside what a reference of the document leads to. -/
theorem finite_reads (hroots : ∀ r ∈ roots, Drawn doc r.schema) : {s | Reads doc roots s}.Finite := by
  have hsources := (List.finite_toSet roots).union (finite_targets doc)
  have hdrawn : ∀ r ∈ {r | r ∈ roots} ∪ {t : SchemaPlace | t.pointer ∈ Document.targets doc ∧
      Document.resolve doc t.pointer = .ok t.schema}, Drawn doc r.schema := by
    rintro r (hr | hr)
    · exact hroots r hr
    · exact .of_resolve hr.2
  refine (hsources.biUnion fun r hr => finite_inside_all (hdrawn r hr)).subset ?_
  intro s hs
  induction hs with
  | root h => exact Set.mem_biUnion (Set.mem_union_left _ h) Relation.ReflTransGen.refl
  | @part s t raw hs hraw ht ih =>
    cases href : raw.get? "$ref" with
    | none =>
      obtain ⟨r, hr, hrs⟩ := Set.mem_iUnion₂.1 ih
      exact Set.mem_biUnion hr (Relation.ReflTransGen.tail hrs ⟨raw, hraw, href, ht⟩)
    | some ref =>
      rw [parts_of_ref href] at ht
      have htarget := (hs.drawn hroots).targetPart hraw href ht
      exact Set.mem_biUnion (Set.mem_union_right _ htarget) Relation.ReflTransGen.refl

theorem exists_places (hroots : ∀ r ∈ roots, Drawn doc r.schema) :
    ∃ places : List String, ∀ s, Reads doc roots s → s.pointer ∈ places := by
  have hfinite := (finite_reads hroots).image SchemaPlace.pointer
  refine ⟨hfinite.toFinset.toList, fun s hs => ?_⟩
  rw [Finset.mem_toList, Set.Finite.mem_toFinset]
  exact Set.mem_image_of_mem _ hs

/-! ### How deep entering goes -/

/-- The places named by references that are left when those in `active` are being built. -/
def openTargets (doc : Value) (active : List String) : List String :=
  (Document.targets doc).filter fun p => !active.contains p

/-- How deep entering a schema can go. Each reference that is followed leaves fewer places open, and
between two references a schema gets smaller with each step. -/
def depth (doc : Value) (s : SchemaPlace) (active : List String) : Nat :=
  (openTargets doc (s.pointer :: active)).length * (doc.size + 1) + s.schema.size

theorem openTargets_cons (doc : Value) (p : String) (active : List String) :
    openTargets doc (p :: active) = (openTargets doc active).filter fun q => !(q == p) := by
  unfold openTargets
  rw [List.filter_filter]
  refine List.filter_congr fun q _ => ?_
  rw [List.contains_cons, Bool.not_or]

theorem depth_inside_lt {s t : SchemaPlace} (h : Inside doc s t) (hs : Drawn doc s.schema)
    (active : List String) : depth doc t (s.pointer :: active) < depth doc s active := by
  have hsize := (h.size_lt hs).2
  have hopen : (openTargets doc (t.pointer :: s.pointer :: active)).length ≤
      (openTargets doc (s.pointer :: active)).length := by
    rw [openTargets_cons]
    exact List.length_filter_le ..
  have hmul := Nat.mul_le_mul_right (doc.size + 1) hopen
  unfold depth
  omega

theorem depth_target_lt {s t : SchemaPlace} {active : List String}
    (htarget : t.pointer ∈ Document.targets doc) (ht : Drawn doc t.schema)
    (hnew : t.pointer ∉ s.pointer :: active) :
    depth doc t (s.pointer :: active) < depth doc s active := by
  have hopen : (openTargets doc (t.pointer :: s.pointer :: active)).length <
      (openTargets doc (s.pointer :: active)).length := by
    rw [openTargets_cons]
    refine List.length_filter_lt_length_iff_exists.2 ⟨t.pointer, ?_, by simp⟩
    exact List.mem_filter.2 ⟨htarget, by simpa using hnew⟩
  have hmul := Nat.mul_le_mul_right (doc.size + 1) hopen
  rw [Nat.succ_mul] at hmul
  have hsize := ht.size_le
  unfold depth
  omega

theorem depth_lt_depthBound {s : SchemaPlace} (hs : Drawn doc s.schema) :
    depth doc s [] < depthBound doc := by
  have hopen : (openTargets doc [s.pointer]).length ≤ doc.size :=
    (List.length_filter_le ..).trans (Document.length_targets_le doc)
  have hmul := Nat.mul_le_mul_right (doc.size + 1) hopen
  have hsize := hs.size_le
  unfold depth depthBound
  simp only [Nat.add_mul, Nat.mul_add] at hmul ⊢
  omega

/-! ### Watched runs -/

/-- Has building begun at a place? Entering a place notes it under itself. -/
def Arena.begun (a : Arena) (pointer : String) : Bool := a.pointers.lookup pointer == some pointer

/-- The places where building has begun are those that are built or being built, so what has begun is
not forgotten. -/
theorem Sound.begun_iff {a : Arena} (ha : Sound setting roots a) {pointer : String} :
    a.begun pointer = true ↔ pointer ∈ Assoc.keys a.nodes ∨ pointer ∈ a.active := by
  rw [Arena.begun, beq_iff_eq]
  exact ⟨fun h => ha.pointer_mem (Assoc.mem_of_lookup h), fun h => ha.pointer_self h⟩

/-- Enters a schema as `enter` does, unless building would begin at a place where it has begun, or at
one that is not among `places`. -/
def enterWatched (setting : Setting) (places : List String) : Nat → Visit
  | 0, _, _ => throw .exhausted
  | fuel + 1, raw, pointer => do
    let arena ← get
    let built := Assoc.has arena.nodes pointer || arena.active.contains pointer
    if !built && (arena.begun pointer || !places.contains pointer) then throw .exhausted
    enterWith setting (enterWatched setting places fuel) raw pointer

/-- Entering begins only where nothing is built or being built, so the watch has nothing to stop. -/
theorem enterWatched_succ {places : List String} {fuel : Nat} {raw : Value} {pointer : String}
    {a : Arena} (ha : Sound setting roots a) (hp : pointer ∈ places) :
    enterWatched setting places (fuel + 1) raw pointer a =
      enterWith setting (enterWatched setting places fuel) raw pointer a := by
  have hpass : ¬ (!(Assoc.has a.nodes pointer || a.active.contains pointer) &&
      (a.begun pointer || !places.contains pointer)) = true := by
    rw [Bool.and_eq_true, Bool.or_eq_true, Bool.not_eq_true', Bool.or_eq_false_iff]
    rintro ⟨⟨hkey, hactive⟩, hbegun | hout⟩
    · rcases ha.begun_iff.1 hbegun with hmem | hmem
      · exact Bool.eq_false_iff.1 hkey (Assoc.has_iff.2 hmem)
      · exact Bool.eq_false_iff.1 hactive (List.contains_iff_mem.2 hmem)
    · rw [List.contains_iff_mem.2 hp] at hout
      cases hout
  change (if _ then _ else _ : Build String) a = _
  rw [if_neg hpass]

/-- Entering the schema at the end of a way. Any two bounds that cover its depth come to the same,
watched or not. -/
theorem enterWatched_alike (hroots : ∀ r ∈ roots, Drawn setting.doc r.schema) {places : List String}
    (hplaces : ∀ s, Reads setting.doc roots s → s.pointer ∈ places) {fuel fuel' : Nat}
    {s : SchemaPlace} {active : List String} (htrail : Trail setting.doc roots s active)
    (hself : s.pointer ∈ active → Failure setting.doc roots (.schema s.pointer .containsItself))
    (hfuel : depth setting.doc s active < fuel) (hfuel' : depth setting.doc s active < fuel') :
    Alike (Building setting roots active) (Failure setting.doc roots)
      (enterWatched setting places fuel') (enter setting fuel) s := by
  induction fuel generalizing fuel' s active with
  | zero => exact absurd hfuel (Nat.not_lt_zero _)
  | succ fuel ih =>
    obtain ⟨fuel', rfl⟩ := Nat.exists_eq_succ_of_ne_zero (Nat.ne_zero_of_lt hfuel')
    have hs := htrail.reads
    have hdrawn := hs.drawn hroots
    refine (keeps_enter setting roots (fuel + 1)).alike hs ?_
    intro a ha
    rw [enterWatched_succ ha.sound (hplaces s hs), enter_succ]
    refine enterWith_agree (fun _ => .ofLocal) hs hself (fun hnew raw hraw => ?_) a ha
    refine build_agree (fun _ => .ofLocal) ?_ ?_ ?_
    · -- a reference is followed only to a place that is not being built
      rintro ref href t ht b ⟨hb, hfree⟩
      rw [hb.active] at hfree
      obtain ⟨htarget, hresolve⟩ := hdrawn.targetPart hraw href ht
      have hlt := depth_target_lt htarget (.of_resolve hresolve) hfree
      rw [← parts_of_ref href s.pointer] at ht
      have hpart := ih (.part htrail hnew hraw ht) (fun hin => absurd hin hfree)
        (show _ < fuel by omega) (show _ < fuel' by omega)
      exact hpart.mono (fun _ => id) (fun _ _ _ => trivial) b hb
    · -- a schema inside is smaller, and met again only if a place on the way is its own
      intro href t ht
      have hinside : Inside setting.doc s t := ⟨raw, hraw, href, ht⟩
      have hlt := depth_inside_lt hinside hdrawn active
      refine ih (.part htrail hnew hraw ht) (fun hin => ?_) (by omega) (by omega)
      obtain ⟨q, hq, haround⟩ := htrail.exists_around hnew hin
      exact .containsItself hs hinside haround hq
    · intro href hall m hm target htarget hpath
      obtain ⟨q, rfl, haround⟩ := htrail.exists_around hnew htarget
      exact .stillComposing hs ⟨raw, hraw, href, hall, hm⟩ haround hpath

end Resolve

open Resolve

theorem SchemaTable.ofDocumentBy_watched {doc : Value} {places : List String} {fuel : Nat}
    (hplaces : ∀ s, Reads doc (rootPlaces doc) s → s.pointer ∈ places) (hfuel : depthBound doc ≤ fuel)
    (policy : MergePolicy) :
    ofDocumentBy (fun setting => enterWatched setting places fuel) doc policy =
        ofDocument doc policy ∧
      Outcome.Faults (Failure doc (rootPlaces doc)) (ofDocument doc policy) := by
  have hroots := drawn_rootPlaces doc
  rw [ofDocument_eq]
  refine ofDocumentBy_agree (fun _ => .ofLocal) fun names s hs => ?_
  have hdepth := depth_lt_depthBound (hroots s hs)
  exact enterWatched_alike hroots hplaces (.root hs) nofun hdepth (Nat.lt_of_lt_of_le hdepth hfuel)

/-- What resolving fails with. -/
theorem SchemaTable.ofDocument_failure (doc : Value) (policy : MergePolicy) :
    Outcome.Faults (Failure doc (rootPlaces doc)) (ofDocument doc policy) := by
  obtain ⟨places, hplaces⟩ := exists_places (drawn_rootPlaces doc)
  exact (ofDocumentBy_watched hplaces (Nat.le_refl _) policy).2

/-- Resolving ends, with a table or with a fault that is no bound on the number of steps: with any
greater bound the outcome is the same. Meanwhile building begins at no place twice, and only at places
of a finite list. -/
theorem SchemaTable.ofDocument_terminates (doc : Value) (policy : MergePolicy) :
    ofDocument doc policy ≠ .error .exhausted ∧
      ∃ places : List String, ∀ fuel, depthBound doc ≤ fuel →
        ofDocumentBy (fun setting => enterWatched setting places fuel) doc policy =
          ofDocument doc policy := by
  obtain ⟨places, hplaces⟩ := exists_places (drawn_rootPlaces doc)
  refine ⟨fun h => ?_, places, fun fuel hfuel => (ofDocumentBy_watched hplaces hfuel policy).1⟩
  exact (ofDocument_failure doc policy _ h).ne_exhausted rfl

end OpenApi
