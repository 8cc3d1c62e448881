import OpenApi.Proofs.Schema.Chains
import OpenApi.Proofs.Types.Precedence
import OpenApi.Proofs.Wire.Following

/-!
Types that are names of other types. A reference has the type of its target, and so has a union of the
one member that takes more than null. Following names from a named type leads to a type that is no name,
unless schemas have their types of each other in a circle.
-/
namespace OpenApi

open Assoc (keys)
open Outcome (Gives)
open Relation (ReflTransGen TransGen)

/-- The name that a type is. -/
def Descriptor.name? : Descriptor → Option Scalar
  | .reference name _ => some name
  | _ => none

theorem Descriptor.name?_eq_some_iff {d : Descriptor} {name : Scalar} :
    d.name? = some name ↔ ∃ t, d = .reference name t := by
  cases d <;> simp [name?]

namespace NamedTypes

variable {types : NamedTypes}

/-- Following names leads to a type that is no name. -/
def Grounded (types : NamedTypes) (d : Descriptor) : Prop :=
  ∃ e, ReflTransGen types.Next d e ∧ ∀ name t, e ≠ .reference name t

/-- The type of a name is another name. -/
def Alias (types : NamedTypes) (name other : Scalar) : Prop :=
  ∃ t, types.get? name = some (.reference other t)

instance (name other : Scalar) : Decidable (types.Alias name other) :=
  decidable_of_iff ((types.get? name).bind Descriptor.name? = some other) (by
    simp only [Option.bind_eq_some_iff, Descriptor.name?_eq_some_iff, Alias]
    constructor
    · rintro ⟨d, hget, t, rfl⟩
      exact ⟨t, hget⟩
    · rintro ⟨t, hget⟩
      exact ⟨_, hget, t, rfl⟩)

theorem Circular.not_grounded {d : Descriptor} (h : types.Circular d) : ¬ types.Grounded d := by
  rintro ⟨e, hlead, he⟩
  obtain ⟨name, t, rfl⟩ := (h.leads hlead).exists_name
  exact he name t rfl

theorem exists_circular (htypes : ∀ e ∈ types, types.Resolves e.2) {d : Descriptor} (hd : types.Resolves d)
    (h : ¬ types.Grounded d) : ∃ name t, types.Circular (.reference name t) := by
  obtain ⟨e, he⟩ := exists_behind htypes hd
  by_cases hname : ∃ name t, e = .reference name t
  · obtain ⟨name, t, rfl⟩ := hname
    exact ⟨name, t, circular_of_behind he⟩
  · exact absurd ⟨e, behind_leads he, fun name t heq => hname ⟨name, t, heq⟩⟩ h

/-- Names that are followed from name to name are names of each other. -/
theorem alias_of_next {name other : Scalar} {t u : Traits}
    (h : TransGen types.Next (.reference name t) (.reference other u)) :
    TransGen types.Alias name other := by
  generalize hend : Descriptor.reference other u = e at h
  induction h generalizing other u with
  | single h =>
    obtain ⟨_, _, heq, hget⟩ := h
    cases heq
    subst hend
    exact .single ⟨u, hget⟩
  | tail _ h ih =>
    obtain ⟨middle, v, rfl, hget⟩ := h
    subst hend
    exact .tail (ih rfl) ⟨u, hget⟩

theorem next_of_alias {name other : Scalar} (h : TransGen types.Alias name other) (t : Traits) :
    ∃ u, TransGen types.Next (.reference name t) (.reference other u) := by
  induction h with
  | single h =>
    obtain ⟨u, hget⟩ := h
    exact ⟨u, .single ⟨name, t, rfl, hget⟩⟩
  | tail _ h ih =>
    obtain ⟨u, hget⟩ := h
    obtain ⟨_, hnext⟩ := ih
    exact ⟨u, hnext.tail ⟨_, _, rfl, hget⟩⟩

theorem circular_of_alias {name : Scalar} (h : TransGen types.Alias name name) :
    ∃ t, types.Circular (.reference name t) := by
  obtain ⟨t, hnext⟩ := next_of_alias h {}
  -- what a name leads to does not depend on its traits
  obtain ⟨e, ⟨_, _, heq, hget⟩, hback⟩ := TransGen.head'_iff.1 hnext
  cases heq
  exact ⟨t, .head' ⟨name, t, rfl, hget⟩ hback⟩

end NamedTypes

namespace Mapper

variable {m : Mapper} {n : Node} {id j : String} {d : Descriptor} {types : NamedTypes}

/-- The schema whose type a schema has: the target of a reference, or the member of a union that is left
when null is taken out. -/
def alias? (m : Mapper) (n : Node) : Option String :=
  match n.kind with
  | .reference | .recursive => n.target
  | .union =>
    match m.present n.members, n.discriminator with
    | [id], none => some id
    | _, _ => none
  | _ => none

/-- The type of an id is that of another. -/
def Aliases (m : Mapper) (id other : String) : Prop :=
  ∃ n, m.table.node id = .ok n ∧ m.alias? n = some other

theorem aliases_iff (hn : m.table.node id = .ok n) : m.Aliases id j ↔ m.alias? n = some j := by
  constructor
  · rintro ⟨n', hn', h⟩
    obtain rfl := Except.ok.inj (hn.symm.trans hn')
    exact h
  · exact fun h => ⟨n, hn, h⟩

theorem Aliases.unique (h : m.Aliases id j) {k : String} (hk : m.Aliases id k) : j = k := by
  obtain ⟨n, hn, h⟩ := h
  exact Option.some.inj (h.symm.trans ((aliases_iff hn).1 hk))

theorem alias?_cases (h : m.alias? n = some j) : n.kind = .union ∨ n.target = some j := by
  unfold alias? at h
  split at h
  · exact .inr h
  · exact .inr h
  · next hkind => exact .inl hkind
  · cases h

/-! ### What the type of an id shows -/

/-- The type of an id is the first name on the way from it, or what the way ends with. -/
inductive Shows (m : Mapper) (id : String) : Descriptor → Prop
  | name {j : String} {name : Scalar} {t : Traits} (hway : TransGen m.Aliases id j)
      (hname : (j, name) ∈ m.names) : Shows m id (.reference name t)
  | own {j : String} {d : Descriptor} (hway : ReflTransGen m.Aliases id j)
      (hend : ∀ k, ¬ m.Aliases j k) (hd : ∀ name t, d ≠ .reference name t) : Shows m id d

theorem Shows.behind (hway : TransGen m.Aliases id j) (h : m.Shows j d) : m.Shows id d := by
  cases h with
  | name hway' hname => exact .name (hway.trans hway') hname
  | own hway' hend hd => exact .own (hway.to_reflTransGen.trans hway') hend hd

theorem Shows.withTraits (h : m.Shows id d) (f : Traits → Traits) : m.Shows id (d.withTraits f) := by
  cases h with
  | name hway hname => exact .name hway hname
  | own hway hend hd =>
    refine .own hway hend fun name t heq => ?_
    cases d with
    | reference name' t' => exact hd name' t' rfl
    | _ => cases heq

section
variable {inv : MapState → Prop} {structural : Use}

/-- The place of an id shows its name or its type to all that have their type of it. -/
theorem useWith_shows (h : Gives inv (structural j) (m.Shows j)) :
    Gives inv (m.useWith structural j) fun d => ∀ id, m.Aliases id j → m.Shows id d := by
  unfold useWith
  cases hlookup : m.names.lookup j with
  | none => exact h.mono fun d hd id hj => hd.behind (.single hj)
  | some name => exact .pure fun id hj => .name (.single hj) (Assoc.mem_of_lookup hlookup)

variable (hn : m.table.node id = .ok n)
include hn

/-- A schema that has its type of no other shows what is made of it. -/
theorem shows_own (halias : m.alias? n = none) (hd : ∀ name t, d ≠ .reference name t) : m.Shows id d := by
  refine .own .refl (fun k hk => ?_) hd
  rw [aliases_iff hn, halias] at hk
  cases hk

theorem union_shows (hkind : n.kind = .union) (h : ∀ j, Gives inv (structural j) (m.Shows j)) :
    Gives inv (m.union (m.useWith structural) n) (m.Shows id) := by
  refine (unionMembers_gives fun j _ => useWith_shows (h j)).bind fun r hr => .pure (.withTraits ?_ _)
  generalize hpresent : m.present n.members = ids at hr
  obtain ⟨members, nullable⟩ := r
  cases hr with
  | nil => exact shows_own hn (by simp [alias?, hkind, hpresent]) (by simp)
  | @cons j e ids ds he hrest =>
    cases hrest with
    | cons _ _ => exact shows_own hn (by simp [alias?, hkind, hpresent]) (by simp)
    | nil =>
      cases hdisc : n.discriminator with
      | some _ => exact shows_own hn (by simp [alias?, hkind, hpresent, hdisc]) (by simp)
      | none => exact he id ((aliases_iff hn).2 (by simp [alias?, hkind, hpresent, hdisc]))

theorem target_shows (hkind : n.kind = .reference ∨ n.kind = .recursive)
    (h : ∀ j, Gives inv (structural j) (m.Shows j)) :
    Gives inv (m.target (m.useWith structural) n) (m.Shows id) := by
  have halias : ∀ j ∈ n.target, m.Aliases id j := by
    intro j hj
    rw [aliases_iff hn, ← hj]
    rcases hkind with hkind | hkind
    · rw [alias?, hkind]
    · rw [alias?, hkind]
  refine target_gives (fun _ j hj => ?_) fun j hj name hlookup => ?_
  · exact (useWith_shows (h j)).mono fun d hd => hd id (halias j hj)
  · exact .name (.single (halias j hj)) (Assoc.mem_of_lookup hlookup)

theorem node_shows (hinv : ∀ s notices, inv s → inv { s with notices })
    (h : ∀ j, Gives inv (structural j) (m.Shows j)) :
    Gives inv (m.node (m.useWith structural) n) (m.Shows id) := by
  by_cases hkind : n.kind = .reference ∨ n.kind = .recursive ∨ n.kind = .union
  · unfold node
    rcases hkind with hkind | hkind | hkind
    · rw [hkind]
      exact (target_shows hn (.inl hkind) h).bind fun d hd => .pure (hd.withTraits _)
    · rw [hkind]
      exact (target_shows hn (.inr hkind) h).bind fun d hd => .pure (hd.withTraits _)
    · rw [hkind]
      exact union_shows hn hkind h
  · simp only [not_or] at hkind
    obtain ⟨hreference, hrecursive, hunion⟩ := hkind
    have halias : m.alias? n = none := by
      unfold alias?
      split <;> simp_all
    have huse : ∀ j, Gives inv (m.useWith structural j) fun _ => True :=
      fun j => (useWith_shows (h j)).mono fun _ _ => trivial
    exact (own_gives (fun _ => hinv) (fun _ => trivial) (fun j _ => huse j) hreference hrecursive hunion).mono
      fun d hd => shows_own hn halias hd.1.ne_reference

end

theorem mapType_shows (hclosed : m.table.Closed) (id : String) :
    Gives (MemoHolds m.Shows) (m.mapType id) (m.Shows id) :=
  mapWithin_holds (fun _ _ _ hn h => node_shows (hclosed.node_id hn) (fun _ _ hs => hs) h) _ id

/-! ### Circles -/

/-- The types of the names of a mapper, each of which shows its id. -/
structure Showing (m : Mapper) (types : NamedTypes) : Prop where
  distinct : Distinct m.names
  shown : ∀ {id name}, (id, name) ∈ m.names →
    ∃ d, types.get? name = some d ∧ (name, d) ∈ types ∧ m.Shows id d
  linked : ∀ e ∈ types, m.Linked e.2

theorem showing_namedTypes {st : MapState} (hclosed : m.table.Closed) (hd : Distinct m.names)
    (h : m.namedTypes.run.run {} = (.ok types, st)) : m.Showing types := by
  have hall := namedTypes_holds hd (mapType_shows hclosed) h
  have hkeys : keys types = m.names.map Prod.snd := keys_of_forall₂ (hall.imp fun e p hp => hp.1)
  constructor
  case distinct => exact hd
  case shown =>
    intro id name hname
    obtain ⟨⟨_, d⟩, hp, rfl, hshows⟩ := Outcome.exists_mem_of_forall₂ hall hname
    exact ⟨d, NamedTypes.get?_of_mem (hkeys ▸ hd.apart) (hkeys ▸ hd.nodup) hp, hp, hshows⟩
  case linked =>
    have hlinked := namedTypes_holds hd (Q := fun _ => m.Linked) m.upholds_linked.mapType h
    exact Outcome.forall_mem_of_forall₂ (hlinked.imp fun _ _ hp => hp.2)

namespace Showing
variable (hshow : m.Showing types)
include hshow

theorem known (hd : m.Linked d) : types.Resolves d := by
  intro name t hmem
  obtain ⟨id, hid⟩ := hd name t hmem
  obtain ⟨e, hget, -⟩ := hshow.shown hid
  rw [hget]
  rfl

/-- The type of the name of an id shows the id. -/
theorem shows_of_get? {name : Scalar} (hname : (id, name) ∈ m.names) (hd : types.get? name = some d) :
    m.Shows id d := by
  obtain ⟨e, hget, -, he⟩ := hshow.shown hname
  obtain rfl := Option.some.inj (hd.symm.trans hget)
  exact he

/-- Following names from a type that shows an id stays on the way from the id. -/
theorem shows_next {e : Descriptor} (hd : m.Shows id d) (hnext : types.Next d e) :
    ∃ j, TransGen m.Aliases id j ∧ m.Shows j e := by
  obtain ⟨name, t, rfl, hget⟩ := hnext
  cases hd with
  | name hway hname => exact ⟨_, hway, hshow.shows_of_get? hname hget⟩
  | own _ _ hd => exact absurd rfl (hd name t)

theorem shows_leads {e : Descriptor} (hd : m.Shows id d) (hlead : ReflTransGen types.Next d e) :
    ∃ j, ReflTransGen m.Aliases id j ∧ m.Shows j e := by
  induction hlead with
  | refl => exact ⟨id, .refl, hd⟩
  | tail _ hnext ih =>
    obtain ⟨j, hj, hshows⟩ := ih
    obtain ⟨k, hk, hshows⟩ := hshow.shows_next hshows hnext
    exact ⟨k, hj.trans hk.to_reflTransGen, hshows⟩

/-- Names that lead in a circle are names of schemas that do. -/
theorem exists_circle {name : Scalar} {t : Traits} (h : types.Circular (.reference name t)) :
    ∃ id ∈ keys m.names, TransGen m.Aliases id id := by
  -- the name is the type of a name, so it is the name of an id
  obtain ⟨_, -, last, u, -, hlast⟩ := TransGen.tail'_iff.1 h
  obtain ⟨key, hmem, -⟩ := NamedTypes.mem_of_get? hlast
  obtain ⟨id, hid⟩ := Descriptor.allReferences_reference.1 (hshow.linked _ hmem)
  obtain ⟨e, ⟨_, _, heq, hget⟩, hback⟩ := TransGen.head'_iff.1 h
  cases heq
  obtain ⟨j, hj, hshows⟩ := hshow.shows_leads (hshow.shows_of_get? hid hget) hback
  cases hshows with
  | own _ _ hd => exact absurd rfl (hd name t)
  | name hway hname =>
    rw [hshow.distinct.id_eq hname hid name.same_self] at hway
    exact ⟨id, Assoc.mem_keys_of_mem hid, .trans_right hj hway⟩

/-- A schema in a circle shows names only. -/
theorem not_grounded_of_circle (hcircle : TransGen m.Aliases id id) (hd : m.Shows id d) :
    ¬ types.Grounded d := by
  rintro ⟨e, hlead, he⟩
  obtain ⟨j, hj, hshows⟩ := hshow.shows_leads hd hlead
  cases hshows with
  | name _ _ => exact he _ _ rfl
  | own hway hend _ =>
    have hround := circle_of_leads (fun _ _ _ ha hb => ha.unique hb) hcircle (hj.trans hway)
    obtain ⟨k, hk, -⟩ := TransGen.head'_iff.1 hround
    exact hend k hk

end Showing

/-- References alone lead to a schema, so there is a union in every circle. -/
theorem exists_union_of_circle (hfollow : m.table.Followable) (hcircle : TransGen m.Aliases id id) :
    ∃ j n, ReflTransGen m.Aliases id j ∧ m.table.node j = .ok n ∧ n.kind = .union := by
  obtain ⟨k, ⟨n, hn, halias⟩, -⟩ := TransGen.head'_iff.1 hcircle
  obtain ⟨steps, c, hends⟩ := hfollow.exists_ends (hfollow.closed.mem_of_node hn)
  induction hends generalizing id k with
  | here ht =>
    rcases alias?_cases halias with hkind | htarget
    · exact ⟨id, _, .refl, hn, hkind⟩
    · rw [ht] at htarget
      cases htarget
  | @next _ target n next c ht hnext _ ih =>
    rcases alias?_cases halias with hkind | htarget
    · exact ⟨id, n, .refl, hn, hkind⟩
    · obtain rfl := Option.some.inj (ht.symm.trans htarget)
      have hstep : m.Aliases id target := ⟨n, hn, halias⟩
      have hround : TransGen m.Aliases target target :=
        circle_of_leads (fun _ _ _ ha hb => ha.unique hb) hcircle (.single hstep)
      obtain ⟨k, hk, -⟩ := TransGen.head'_iff.1 hround
      obtain ⟨j, u, hj, hu⟩ := ih hround k hnext ((aliases_iff hnext).1 hk)
      exact ⟨j, u, .head hstep hj, hu⟩

/-! ### The named types of a document -/

open Resolve (NamesApart)

/-- Every type of a document bottoms out: following names from any type inside of a named type leads to
one that is no name, and no name stands for itself through other names, unless named schemas have their
types of each other in a circle. In such a circle there is always a union. -/
theorem grounded_namedTypes {doc : Value} {policy : MergePolicy} {table : SchemaTable} {st : MapState}
    (htable : SchemaTable.ofDocument doc policy = .ok table) (hnames : NamesApart doc)
    (hm : ofTable table = .ok m) (htypes : m.namedTypes.run.run {} = (.ok types, st)) :
    ((∀ e ∈ types, ∀ d ∈ e.2.walk, types.Grounded d) ↔
        ∀ id ∈ keys m.names, ¬ TransGen m.Aliases id id) ∧
      ((∀ name, ¬ TransGen types.Alias name name) ↔
        ∀ id ∈ keys m.names, ¬ TransGen m.Aliases id id) ∧
      ∀ id, TransGen m.Aliases id id →
        ∃ j n, ReflTransGen m.Aliases id j ∧ table.node j = .ok n ∧ n.kind = .union := by
  obtain ⟨names, a, hc⟩ := SchemaTable.ofDocument_ok htable
  obtain rfl := (ofTable_names hc hm).table_eq
  have hshow := showing_namedTypes hc.closed (distinct_ofTable hc hnames hm) htypes
  have hknown : ∀ e ∈ types, types.Resolves e.2 := fun e he => hshow.known (hshow.linked e he)
  have hcircle : ∀ id ∈ keys m.names, TransGen m.Aliases id id →
      ∃ e ∈ types, ¬ types.Grounded e.2 := by
    intro id hid hround
    obtain ⟨name, hname⟩ := Assoc.exists_of_mem_keys hid
    obtain ⟨d, -, hmem, hshows⟩ := hshow.shown hname
    exact ⟨_, hmem, hshow.not_grounded_of_circle hround hshows⟩
  have hcircular : ∀ e ∈ types, ∀ d ∈ e.2.walk, ¬ types.Grounded d →
      ∃ name t, types.Circular (.reference name t) := by
    intro e he d hd
    refine NamedTypes.exists_circular hknown fun name t hmem => hknown e he name t ?_
    exact Descriptor.mem_walk_trans hd hmem
  refine ⟨⟨fun h id hid hround => ?_, fun h e he d hd => ?_⟩,
    ⟨fun h id hid hround => ?_, fun h name halias => ?_⟩,
    fun id => exists_union_of_circle hc.followable⟩
  · obtain ⟨e, he, hnot⟩ := hcircle id hid hround
    exact hnot (h e he e.2 (Descriptor.mem_walk_iff.2 (.inl rfl)))
  · by_contra hnot
    obtain ⟨name, t, hround⟩ := hcircular e he d hd hnot
    obtain ⟨id, hid, hround⟩ := hshow.exists_circle hround
    exact h id hid hround
  · obtain ⟨e, he, hnot⟩ := hcircle id hid hround
    obtain ⟨name, t, hround⟩ := hcircular e he e.2 (Descriptor.mem_walk_iff.2 (.inl rfl)) hnot
    exact h name (NamedTypes.alias_of_next hround)
  · obtain ⟨t, hround⟩ := NamedTypes.circular_of_alias halias
    obtain ⟨id, hid, hround⟩ := hshow.exists_circle hround
    exact h id hid hround

/-- A name for the users that may be missing, and a name for that name. -/
def guests : Value :=
  .record [("components", .record [("schemas", .record [
    ("User", .record [("type", .str "object")]),
    ("Guest", .record [("oneOf", .list [
      .record [("$ref", .str "#/components/schemas/User")], .record [("type", .str "null")]])]),
    ("Visitor", .record [("$ref", .str "#/components/schemas/Guest")])])])]

theorem guests_grounded : ∃ table m types st,
    SchemaTable.ofDocument guests .lastWins = .ok table ∧ NamesApart guests ∧ ofTable table = .ok m ∧
      m.namedTypes.run.run {} = (.ok types, st) ∧
      types.Alias (.str "Visitor") (.str "Guest") ∧ types.Alias (.str "Guest") (.str "User") ∧
      ((∀ e ∈ types, ∀ d ∈ e.2.walk, types.Grounded d) ↔
        ∀ id ∈ keys m.names, ¬ TransGen m.Aliases id id) ∧
      ((∀ name, ¬ TransGen types.Alias name name) ↔
        ∀ id ∈ keys m.names, ¬ TransGen m.Aliases id id) ∧
      ∀ id, TransGen m.Aliases id id →
        ∃ j n, ReflTransGen m.Aliases id j ∧ table.node j = .ok n ∧ n.kind = .union := by
  have hnames : NamesApart guests := by decide +kernel
  have hok : ∃ table ∈ (SchemaTable.ofDocument guests .lastWins).toOption,
      ∃ m ∈ (ofTable table).toOption, ∃ types ∈ (m.namedTypes.run.run {}).1.toOption,
        types.Alias (.str "Visitor") (.str "Guest") ∧ types.Alias (.str "Guest") (.str "User") := by
    decide +kernel
  obtain ⟨table, htable, hok⟩ := Outcome.exists_ok.2 hok
  obtain ⟨m, hm, hok⟩ := Outcome.exists_ok.2 hok
  obtain ⟨types, htypes, hvisitor, hguest⟩ := Outcome.exists_ok.2 hok
  have htypes : m.namedTypes.run.run {} = (.ok types, _) := Prod.ext htypes rfl
  exact ⟨table, m, types, _, htable, hnames, hm, htypes, hvisitor, hguest,
    grounded_namedTypes htable hnames hm htypes⟩

/-- A union that is its own only member. -/
def itself : Value :=
  .record [("components", .record [("schemas", .record [
    ("A", .record [("oneOf", .list [.record [("$ref", .str "#/components/schemas/A")]])])])])]

/-- Its type is its own name. -/
theorem itself_not_grounded : ∃ table m types st,
    SchemaTable.ofDocument itself .lastWins = .ok table ∧ NamesApart itself ∧ ofTable table = .ok m ∧
      m.namedTypes.run.run {} = (.ok types, st) ∧ types.Alias (.str "A") (.str "A") ∧
      ∃ e ∈ types, ¬ types.Grounded e.2 := by
  have hnames : NamesApart itself := by decide +kernel
  have hok : ∃ table ∈ (SchemaTable.ofDocument itself .lastWins).toOption,
      ∃ m ∈ (ofTable table).toOption, ∃ types ∈ (m.namedTypes.run.run {}).1.toOption,
        types.Alias (.str "A") (.str "A") := by
    decide +kernel
  obtain ⟨table, htable, hok⟩ := Outcome.exists_ok.2 hok
  obtain ⟨m, hm, hok⟩ := Outcome.exists_ok.2 hok
  obtain ⟨types, htypes, halias⟩ := Outcome.exists_ok.2 hok
  obtain ⟨t, hget⟩ := halias
  obtain ⟨key, hmem, -⟩ := NamedTypes.mem_of_get? hget
  have hcircular : types.Circular (.reference (.str "A") t) := .single ⟨.str "A", t, rfl, hget⟩
  exact ⟨table, m, types, _, htable, hnames, hm, Prod.ext htypes rfl, ⟨t, hget⟩, _, hmem,
    hcircular.not_grounded⟩

end Mapper
end OpenApi
