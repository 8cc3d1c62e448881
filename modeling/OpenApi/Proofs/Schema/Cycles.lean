import OpenApi.Proofs.Schema.Termination

/-!
Cycles that resolving refuses. A schema meets itself without a reference only if a place inside it is
reached from elsewhere and leads back to the schema. A composition waits for itself only if a member
refers to something that leads back to the composition. Where neither can happen, nothing is refused,
in whatever order the document holds its schemas. Where it can, the order decides.
-/
namespace OpenApi
namespace Resolve

variable {doc : Value} {roots places : List SchemaPlace} {s t q : SchemaPlace}

/-- No place inside a schema is being built when the schema is. -/
def NestedApart (doc : Value) (roots : List SchemaPlace) : Prop :=
  ∀ s t q, Reads doc roots s → Inside doc s t → Around doc roots q s → q.pointer ≠ t.pointer

/-- No member of a composition refers to what is being built when the composition is. -/
def MembersApart (doc : Value) (roots : List SchemaPlace) : Prop :=
  ∀ s m q, Reads doc roots s → Member s m → Around doc roots q s →
    ¬ Relation.TransGen (Refers doc roots) m.pointer q.pointer

/-- Building a reference to what is being built gives a marker, and enters nothing. -/
theorem build_marker (setting : Setting) (visit : Visit) {raw : Entries} {ref target : String}
    (pointer : String) {a : Arena} (href : raw.get? "$ref" = some (.str ref))
    (htarget : Pointer.normalize ref = .ok target) (hactive : target ∈ a.active) :
    ∃ n b, build setting visit raw pointer a = .ok (n, b) ∧ n.isMarker = true ∧
      n.target = some target ∧ b.nodes = a.nodes ∧ b.active = a.active := by
  have hin : a.active.contains target = true := List.contains_iff_mem.2 hactive
  refine ⟨{ common setting raw pointer .recursive with target := some target },
    { a with pointers := Assoc.insertNew a.pointers ref target }, ?_, rfl, rfl, rfl, rfl⟩
  rw [build, href]
  refine Outcome.run_bind.2 ⟨target, a, Outcome.run_lift.2 ⟨htarget, rfl⟩, ?_⟩
  refine Outcome.run_bind.2 ⟨a, a, Outcome.run_get.2 ⟨rfl, rfl⟩, ?_⟩
  rw [if_pos hin]
  exact Outcome.run_bind.2 ⟨⟨⟩, _, Outcome.run_modify.2 rfl, Outcome.run_pure.2 ⟨rfl, rfl⟩⟩

/-- The place and the cause for which a schema was refused. -/
def refusal? {α : Type} : Checked α → Option (String × SchemaFault)
  | .error (.schema pointer cause) => some (pointer, cause)
  | _ => none

theorem refusal?_eq_some_iff {α : Type} {x : Checked α} {pointer : String} {cause : SchemaFault} :
    refusal? x = some (pointer, cause) ↔ x = .error (.schema pointer cause) := by
  unfold refusal?
  split
  · simp
  · next hother =>
    constructor
    · exact nofun
    · exact fun h => absurd h (hother pointer cause)

/-! ### Lists of what is being built -/

/-- What is read from `places` on without passing `avoided`, in at most so many steps. -/
def readAroundWithin (doc : Value) (avoided : String) : Nat → List SchemaPlace → List SchemaPlace
  | 0, places => places
  | steps + 1, places =>
    let next := (places.filter fun s => s.pointer != avoided).flatMap fun s =>
      ((schemaEntries? s.schema).map fun raw => parts doc raw s.pointer).getD []
    readAroundWithin doc avoided steps (Assoc.distinct (places ++ next))

/-- `places` holds the roots, and the parts of whatever it holds at other places than `avoided`. -/
def CoversAround (doc : Value) (roots : List SchemaPlace) (avoided : String)
    (places : List SchemaPlace) : Prop :=
  (∀ s ∈ roots, s ∈ places) ∧ ∀ s ∈ places, s.pointer ≠ avoided →
    ∀ raw ∈ schemaEntries? s.schema, ∀ t ∈ parts doc raw s.pointer, t ∈ places

instance (doc : Value) (roots : List SchemaPlace) (avoided : String) (places : List SchemaPlace) :
    Decidable (CoversAround doc roots avoided places) :=
  inferInstanceAs (Decidable (_ ∧ _))

theorem CoversAround.mem {avoided : String} (h : CoversAround doc roots avoided places)
    (hs : ReadsAround doc roots avoided s) : s ∈ places := by
  induction hs with
  | root hs => exact h.1 _ hs
  | part _ hne hraw ht ih => exact h.2 _ ih hne _ hraw _ ht

/-- The places that may be being built when `s` is, as far as so many steps show. -/
def aroundWithin (doc : Value) (roots : List SchemaPlace) (steps : Nat) (s : SchemaPlace) :
    List SchemaPlace :=
  (readAroundWithin doc s.pointer steps roots).filter fun q => (readWithin doc steps [q]).contains s

/-- So many steps show all that is read, from the roots and from every place. -/
def Surveyed (doc : Value) (roots : List SchemaPlace) (steps : Nat) : Prop :=
  Covers doc roots (readWithin doc steps roots) ∧ ∀ s ∈ readWithin doc steps roots,
    CoversAround doc roots s.pointer (readAroundWithin doc s.pointer steps roots) ∧
      Covers doc [s] (readWithin doc steps [s])

instance (doc : Value) (roots : List SchemaPlace) (steps : Nat) :
    Decidable (Surveyed doc roots steps) :=
  inferInstanceAs (Decidable (_ ∧ _))

theorem ReadsAround.reads {avoided : String} (h : ReadsAround doc roots avoided s) :
    Reads doc roots s := by
  induction h with
  | root h => exact .root h
  | part _ _ hs ht ih => exact .part ih hs ht

theorem Surveyed.mem_around {steps : Nat} (h : Surveyed doc roots steps) (hs : Reads doc roots s)
    (hq : Around doc roots q s) : q ∈ aroundWithin doc roots steps s := by
  have hfrom := (h.2 q (h.1.mem hq.1.reads)).2
  refine List.mem_filter.2 ⟨(h.2 s (h.1.mem hs)).1.mem hq.1, ?_⟩
  exact List.contains_iff_mem.2 (hfrom.mem hq.2)

/-- Among all that is read, no place inside a schema is being built when the schema is. -/
def NestedApartWithin (doc : Value) (roots : List SchemaPlace) (steps : Nat) : Prop :=
  ∀ s ∈ readWithin doc steps roots, ∀ raw ∈ schemaEntries? s.schema, raw.get? "$ref" = none →
    ∀ t ∈ parts doc raw s.pointer, ∀ q ∈ aroundWithin doc roots steps s, q.pointer ≠ t.pointer

instance (doc : Value) (roots : List SchemaPlace) (steps : Nat) :
    Decidable (NestedApartWithin doc roots steps) :=
  inferInstanceAs (Decidable (∀ s ∈ readWithin doc steps roots, _))

theorem Surveyed.nestedApart {steps : Nat} (h : Surveyed doc roots steps)
    (hapart : NestedApartWithin doc roots steps) : NestedApart doc roots := by
  rintro s t q hs ⟨raw, hraw, href, ht⟩ hq
  exact hapart s (h.1.mem hs) raw hraw href t ht q (h.mem_around hs hq)

end Resolve

open Resolve

/-- Where the places inside a schema keep apart from what is being built around it, no schema meets
itself without a reference. A reference to what is being built becomes a marker. -/
theorem SchemaTable.ofDocument_ne_containsItself {doc : Value}
    (h : NestedApart doc (rootPlaces doc)) :
    (∀ policy pointer, ofDocument doc policy ≠ .error (.schema pointer .containsItself)) ∧
      ∀ setting visit raw ref target pointer, ∀ a : Arena, raw.get? "$ref" = some (.str ref) →
        Pointer.normalize ref = .ok target → target ∈ a.active →
          ∃ n b, build setting visit raw pointer a = .ok (n, b) ∧ n.isMarker = true ∧
            n.target = some target ∧ b.nodes = a.nodes ∧ b.active = a.active := by
  refine ⟨fun policy pointer herror => ?_, ?_⟩
  · cases ofDocument_failure doc policy _ herror with
    | ofLocal hlocal => cases hlocal
    | containsItself hs ht hq heq => exact h _ _ _ hs ht hq heq
  · intro setting visit raw ref target pointer a href htarget hactive
    exact build_marker setting visit pointer href htarget hactive

namespace Resolve

/-- A link has a place inside that a reference names, and leads back to itself. -/
theorem chain_ne_containsItself : NestedApart chain (rootPlaces chain) ∧
    (∀ policy pointer,
      SchemaTable.ofDocument chain policy ≠ .error (.schema pointer .containsItself)) ∧
    ∃ n b, build ⟨chain, .lastWins, []⟩ (fun _ _ => throw .exhausted)
        [(.str "$ref", .str "#/components/schemas/Link")] "#/components/schemas/Link/properties/next"
        { active := ["#/components/schemas/Link"] } = .ok (n, b) ∧ n.isMarker = true ∧
      n.target = some "#/components/schemas/Link" ∧ b.nodes = [] ∧
      b.active = ["#/components/schemas/Link"] := by
  have hwithin : Surveyed chain (rootPlaces chain) 3 ∧
      NestedApartWithin chain (rootPlaces chain) 3 := by decide +kernel
  have hapart := hwithin.1.nestedApart hwithin.2
  have hall := SchemaTable.ofDocument_ne_containsItself hapart
  have hnormal : ∃ target, Pointer.normalize "#/components/schemas/Link" = .ok target ∧
      target = "#/components/schemas/Link" := Outcome.exists_ok.2 (by decide +kernel)
  obtain ⟨_, htarget, rfl⟩ := hnormal
  exact ⟨hapart, hall.1, hall.2 _ _ _ _ _ _ _ (by decide +kernel) htarget (List.mem_singleton_self _)⟩

/-- `A` enters a place inside `B`, and that place refers to `B`. -/
def reentered (order : List (String × Value) → List (String × Value)) : Value :=
  let a := ("A", .record [("$ref", .str "#/components/schemas/B/properties/x")])
  let b := ("B", .record [("properties", .record [
    ("x", .record [("$ref", .str "#/components/schemas/B")])])])
  .record [("components", .record [("schemas", .record (order [a, b]))])]

/-- With `A` first, `B` meets the place inside it that is being built. With `B` first, the place becomes
a marker. -/
theorem reentered_containsItself :
    SchemaTable.ofDocument (reentered id) .lastWins =
        .error (.schema "#/components/schemas/B/properties/x" .containsItself) ∧
      ∃ table, SchemaTable.ofDocument (reentered List.reverse) .lastWins = .ok table ∧
        table.markers.map (·.id) = ["#/components/schemas/B/properties/x"] := by
  refine ⟨refusal?_eq_some_iff.1 (by decide +kernel), Outcome.exists_ok.2 (by decide +kernel)⟩

end Resolve

/-! ### Compositions -/

namespace Resolve

variable {doc : Value} {roots places : List SchemaPlace}

/-- What the references at `start` lead to among `places`, in at most so many steps. -/
def referredWithin (places : List SchemaPlace) : Nat → List String → List String
  | 0, found => found
  | steps + 1, found =>
    let next := (places.filter fun s => found.contains s.pointer).filterMap fun s =>
      Document.target? s.schema
    referredWithin places steps (Assoc.distinct (found ++ next))

/-- `found` holds where the references at its places lead. -/
def CoversReferred (places : List SchemaPlace) (found : List String) : Prop :=
  ∀ s ∈ places, s.pointer ∈ found → ∀ target ∈ Document.target? s.schema, target ∈ found

instance (places : List SchemaPlace) (found : List String) :
    Decidable (CoversReferred places found) :=
  inferInstanceAs (Decidable (∀ s ∈ places, _))

theorem Refers.exists_target {p target : String} (h : Refers doc roots p target) :
    ∃ s, Reads doc roots s ∧ s.pointer = p ∧ Document.target? s.schema = some target := by
  obtain ⟨s, raw, ref, hs, hp, hraw, href, htarget⟩ := h
  refine ⟨s, hs, hp, Document.target?_eq_some_iff.2 ⟨_, ?_, htarget⟩⟩
  rcases schemaEntries?_cases hraw with hmap | ⟨-, rfl⟩
  · rw [hmap]
    exact href
  · cases href

theorem CoversReferred.mem {found : List String} (h : CoversReferred places found)
    (hplaces : ∀ s, Reads doc roots s → s ∈ places) {start p : String} (hstart : start ∈ found)
    (hpath : Relation.ReflTransGen (Refers doc roots) start p) : p ∈ found := by
  induction hpath with
  | refl => exact hstart
  | tail _ hrefers ih =>
    obtain ⟨s, hs, rfl, htarget⟩ := hrefers.exists_target
    exact h s (hplaces s hs) ih _ htarget

theorem mem_referredWithin {steps : Nat} {found : List String} {p : String} (h : p ∈ found) :
    p ∈ referredWithin places steps found := by
  induction steps generalizing found with
  | zero => exact h
  | succ steps ih => exact ih (Assoc.mem_distinct.2 (List.mem_append_left _ h))

/-- Among all that is read, `bad` holds of no place that members of compositions refer to. -/
def MembersAvoid (doc : Value) (roots : List SchemaPlace) (steps : Nat)
    (bad : SchemaPlace → List String) : Prop :=
  ∀ s ∈ readWithin doc steps roots, ∀ raw ∈ schemaEntries? s.schema, raw.get? "$ref" = none →
    raw.has "allOf" = true → ∀ m ∈ branchParts raw s.pointer "allOf",
      CoversReferred (readWithin doc steps roots)
          (referredWithin (readWithin doc steps roots) steps [m.pointer]) ∧
        ∀ p ∈ bad s, p ∉ referredWithin (readWithin doc steps roots) steps [m.pointer]

instance (doc : Value) (roots : List SchemaPlace) (steps : Nat) (bad : SchemaPlace → List String) :
    Decidable (MembersAvoid doc roots steps bad) :=
  inferInstanceAs (Decidable (∀ s ∈ readWithin doc steps roots, _))

theorem MembersAvoid.not_refers {steps : Nat} {bad : SchemaPlace → List String}
    (h : MembersAvoid doc roots steps bad) (hcovers : Covers doc roots (readWithin doc steps roots))
    {s m : SchemaPlace} (hs : Reads doc roots s) (hm : Member s m) {p : String} (hp : p ∈ bad s) :
    ¬ Relation.ReflTransGen (Refers doc roots) m.pointer p := by
  intro hpath
  obtain ⟨raw, hraw, href, hall, hm⟩ := hm
  obtain ⟨hreferred, havoid⟩ := h s (hcovers.mem hs) raw hraw href hall m hm
  refine havoid p hp (hreferred.mem (fun s => hcovers.mem) (mem_referredWithin ?_) hpath)
  exact List.mem_singleton_self _

theorem Surveyed.membersApart {steps : Nat} (h : Surveyed doc roots steps)
    (havoid : MembersAvoid doc roots steps fun s => (aroundWithin doc roots steps s).map (·.pointer)) :
    MembersApart doc roots := by
  intro s m q hs hm hq hpath
  exact havoid.not_refers h.1 hs hm (List.mem_map_of_mem (h.mem_around hs hq)) hpath.to_reflTransGen

/-- The composition at `p` has a member behind whose references stands the schema at `q`. -/
def Composes (doc : Value) (roots : List SchemaPlace) (p q : String) : Prop :=
  ∃ s m, Reads doc roots s ∧ s.pointer = p ∧ Member s m ∧
    Relation.ReflTransGen (Refers doc roots) m.pointer q ∧ ∀ target, ¬ Refers doc roots q target

end Resolve

/-- Where what members refer to keeps apart from what is being built around their composition, no
composition waits for what is still being composed. -/
theorem SchemaTable.ofDocument_ne_stillComposing {doc : Value}
    (h : MembersApart doc (rootPlaces doc)) (policy : MergePolicy) (pointer member target : String) :
    ofDocument doc policy ≠ .error (.schema pointer (.stillComposing member target)) := by
  intro herror
  cases ofDocument_failure doc policy _ herror with
  | ofLocal hlocal => cases hlocal
  | stillComposing hs hm hq hpath => exact h _ _ _ hs hm hq hpath

namespace Resolve

/-- A folder is an entry that holds folders. -/
def folders : Value :=
  .record [("components", .record [("schemas", .record [
    ("Entry", .record [("properties", .record [("name", .record [("type", .str "string")])])]),
    ("Folder", .record [("allOf", .list [
      .record [("$ref", .str "#/components/schemas/Entry")],
      .record [("properties", .record [
        ("inner", .record [("$ref", .str "#/components/schemas/Folder")])])]])])])])]

theorem folders_ne_stillComposing : MembersApart folders (rootPlaces folders) ∧
    SchemaTable.ofDocument folders .lastWins ≠ .error (.schema "#/components/schemas/Folder"
      (.stillComposing "#/components/schemas/Folder/allOf/0" "#/components/schemas/Entry")) := by
  have hwithin : Surveyed folders (rootPlaces folders) 5 ∧ MembersAvoid folders (rootPlaces folders) 5
      fun s => (aroundWithin folders (rootPlaces folders) 5 s).map (·.pointer) := by decide +kernel
  have hapart := hwithin.1.membersApart hwithin.2
  exact ⟨hapart, SchemaTable.ofDocument_ne_stillComposing hapart _ _ _ _⟩

/-- `Sub` is composed of `Base`, which has a property that is a `Sub`. -/
def inherited (order : List (String × Value) → List (String × Value)) : Value :=
  let base := ("Base", .record [("properties", .record [
    ("child", .record [("$ref", .str "#/components/schemas/Sub")])])])
  let sub := ("Sub", .record [("allOf", .list [
    .record [("$ref", .str "#/components/schemas/Base")],
    .record [("properties", .record [("n", .record [("type", .str "integer")])])]])])
  .record [("components", .record [("schemas", .record (order [base, sub]))])]

/-- No schema of `inherited` is composed of itself. Yet with `Base` first, `Sub` waits for it. With `Sub`
first, the property becomes a marker. -/
theorem inherited_stillComposing :
    (∀ p, ¬ Relation.TransGen (Composes (inherited id) (rootPlaces (inherited id))) p p) ∧
      SchemaTable.ofDocument (inherited id) .lastWins = .error (.schema "#/components/schemas/Sub"
        (.stillComposing "#/components/schemas/Sub/allOf/0" "#/components/schemas/Base")) ∧
      ∃ table, SchemaTable.ofDocument (inherited List.reverse) .lastWins = .ok table ∧
        table.markers.map (·.id) = ["#/components/schemas/Base/properties/child"] := by
  refine ⟨?_, refusal?_eq_some_iff.1 (by decide +kernel), Outcome.exists_ok.2 (by decide +kernel)⟩
  have hcovers : Covers (inherited id) (rootPlaces (inherited id))
      (readWithin (inherited id) 4 (rootPlaces (inherited id))) := by decide +kernel
  have honly : ∀ s ∈ readWithin (inherited id) 4 (rootPlaces (inherited id)),
      ∀ raw ∈ schemaEntries? s.schema, raw.has "allOf" = true →
        s.pointer = "#/components/schemas/Sub" := by decide +kernel
  have havoid : MembersAvoid (inherited id) (rootPlaces (inherited id)) 4
      fun _ => ["#/components/schemas/Sub"] := by decide +kernel
  -- only `Sub` is composed of something, and nothing is composed of `Sub`
  have hfirst : ∀ {p q}, Composes (inherited id) (rootPlaces (inherited id)) p q →
      p = "#/components/schemas/Sub" := by
    rintro p q ⟨s, m, hs, rfl, ⟨raw, hraw, -, hall, -⟩, -⟩
    exact honly s (hcovers.mem hs) raw hraw hall
  have hlast : ∀ {p q}, Composes (inherited id) (rootPlaces (inherited id)) p q →
      q ≠ "#/components/schemas/Sub" := by
    rintro p q ⟨s, m, hs, -, hm, hpath, -⟩ rfl
    exact havoid.not_refers hcovers hs hm (List.mem_singleton_self _) hpath
  intro p hcycle
  obtain ⟨q, hq, -⟩ := Relation.TransGen.head'_iff.1 hcycle
  obtain ⟨r, -, hr⟩ := Relation.TransGen.tail'_iff.1 hcycle
  exact hlast hr (hfirst hq)

end Resolve
end OpenApi
