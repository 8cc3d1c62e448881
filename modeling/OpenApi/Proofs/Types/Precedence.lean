import OpenApi.Proofs.Types.References

/-!
The types of a document in their order: every name is listed once, and behind all names that its type
awaits. Names that await each other in a circle do so through a reference that is marked as recursive.
-/
namespace OpenApi

namespace NamedTypes
open Assoc (keys)

variable {types : NamedTypes} {name : Scalar}

theorem foldl_insert_of_apart {pairs : NamedTypes} (hapart : Apart (keys pairs))
    (hk : (keys pairs).Nodup) :
    pairs.foldl (fun types (name, d) => NamedTypes.insert types name d) [] = pairs := by
  rw [keys, List.Nodup, List.pairwise_map] at hk
  refine puts_insert.foldl_eq_append [] (hk.imp_of_mem fun {a b} ha hb hne => Bool.eq_false_iff.2 ?_)
  exact fun hsame => hne (hapart a.1 (List.mem_map_of_mem ha) b.1 (List.mem_map_of_mem hb) hsame)

theorem awaits_of_mem_needs {d : Descriptor} (h : name ∈ needs types d) : d.Awaits name := by
  obtain ⟨e, he, h⟩ := List.mem_filterMap.1 h
  split at h
  · next t =>
    split at h
    · next hneeded =>
      cases h
      exact ⟨t, he, by simpa using (Bool.and_eq_true_iff.1 hneeded).1⟩
    · cases h
  · cases h

theorem mem_needs {d : Descriptor} (h : d.Awaits name) (hname : (types.get? name).isSome = true) :
    name ∈ needs types d := by
  obtain ⟨t, ht, hrec⟩ := h
  exact List.mem_filterMap.2 ⟨_, ht, by simp [hrec, hname]⟩

/-- The type of a name awaits another name. -/
def Awaits (types : NamedTypes) (name other : Scalar) : Prop :=
  ∃ d, (name, d) ∈ types ∧ d.Awaits other

end NamedTypes

namespace Mapper
open Assoc (keys)
open NamedTypes
open Outcome (Gives)

variable {m : Mapper} {types : NamedTypes} {st : MapState}

theorem keys_of_forall₂ {names : List (String × Scalar)}
    (h : List.Forall₂ (fun e p => p.1 = e.2) names types) : keys types = names.map Prod.snd := by
  rw [← List.forall₂_eq_eq_eq, keys, List.forall₂_map_left_iff, List.forall₂_map_right_iff]
  exact h.flip

/-- The named types stand in the order of the names, and what is said of the type of each id holds of
them. -/
theorem namedTypes_holds {Q : String → Descriptor → Prop} (hd : Distinct m.names)
    (hQ : ∀ id, Gives (MemoHolds Q) (m.mapType id) (Q id))
    (h : m.namedTypes.run.run {} = (.ok types, st)) :
    List.Forall₂ (fun e p => p.1 = e.2 ∧ Q e.1 p.2) m.names types := by
  obtain ⟨pairs, t, hpairs, h⟩ := Outcome.ran_bind.1 h
  obtain ⟨rfl, -⟩ := Outcome.ran_pure.1 h
  have hgives : Gives (MemoHolds Q) (m.names.mapM fun e => do return (e.2, ← m.mapType e.1))
      (List.Forall₂ (fun e p => p.1 = e.2 ∧ Q e.1 p.2) m.names) :=
    .mapM fun e _ => (hQ e.1).bind fun d hd => .pure ⟨rfl, hd⟩
  have hall := (hgives {} pairs t nofun hpairs).2
  have hkeys : keys pairs = m.names.map Prod.snd :=
    keys_of_forall₂ (hall.imp fun e p hp => hp.1)
  rwa [foldl_insert_of_apart (hkeys ▸ hd.apart) (hkeys ▸ hd.nodup)]

/-- Each named type is below the schema that it is made of. -/
theorem namedTypes_below (horder : m.table.InOrder) (hd : Distinct m.names)
    (h : m.namedTypes.run.run {} = (.ok types, st)) :
    List.Forall₂ (fun e p => p.1 = e.2 ∧ m.Below (m.table.position e.1) p.2) m.names types :=
  namedTypes_holds (Q := fun id => m.Below (m.table.position id)) hd
    (fun id => mapWithin_gives horder _ id) h

/-- The position of the schema that has a name. -/
def rank (m : Mapper) (name : Scalar) : Nat :=
  m.table.position (((m.names.map Prod.swap).lookup name).getD "")

theorem rank_eq (hd : Distinct m.names) {id : String} {name : Scalar} (h : (id, name) ∈ m.names) :
    m.rank name = m.table.position id := by
  have hk : (keys (m.names.map Prod.swap)).Nodup := by
    simpa [keys, Function.comp_def] using hd.nodup
  have hmem : (name, id) ∈ m.names.map Prod.swap := List.mem_map.2 ⟨_, h, rfl⟩
  rw [rank, Assoc.lookup_of_mem hk hmem]
  rfl

/-- Names, ids and types that belong together. -/
structure Typed (m : Mapper) (types : NamedTypes) : Prop where
  distinct : Distinct m.names
  keys_eq : keys types = m.names.map Prod.snd
  below : ∀ {name d}, (name, d) ∈ types →
    ∃ id, (id, name) ∈ m.names ∧ m.Below (m.table.position id) d

theorem typed_namedTypes (horder : m.table.InOrder) (hd : Distinct m.names)
    (h : m.namedTypes.run.run {} = (.ok types, st)) : m.Typed types := by
  have hall := namedTypes_below horder hd h
  constructor
  case distinct => exact hd
  case keys_eq => exact keys_of_forall₂ (hall.imp fun e p hp => hp.1)
  case below =>
    intro name d hmem
    obtain ⟨e, he, rfl, hbelow⟩ := Outcome.exists_mem_of_forall₂ hall.flip hmem
    exact ⟨e.1, he, hbelow⟩

namespace Typed

variable {name other : Scalar}

theorem nodup (h : m.Typed types) : (keys types).Nodup := h.keys_eq ▸ h.distinct.nodup

theorem get?_eq (h : m.Typed types) {d : Descriptor} (hd : (name, d) ∈ types) :
    types.get? name = some d :=
  get?_of_mem (h.keys_eq ▸ h.distinct.apart) h.nodup hd

theorem mem_keys_of_awaits (h : m.Typed types) (ha : types.Awaits name other) : other ∈ keys types := by
  obtain ⟨d, hd, ha⟩ := ha
  obtain ⟨id, -, hbelow⟩ := h.below hd
  obtain ⟨id', hid', -⟩ := hbelow other ha
  rw [h.keys_eq]
  exact List.mem_map.2 ⟨_, hid', rfl⟩

theorem rank_lt (h : m.Typed types) (ha : types.Awaits name other) : m.rank other < m.rank name := by
  obtain ⟨d, hd, ha⟩ := ha
  obtain ⟨id, hid, hbelow⟩ := h.below hd
  obtain ⟨id', hid', hlt⟩ := hbelow other ha
  rwa [rank_eq h.distinct hid, rank_eq h.distinct hid']

theorem mem_needed_iff (h : m.Typed types) (hname : name ∈ keys types) :
    other ∈ needed types name ↔ types.Awaits name other := by
  obtain ⟨d, hd⟩ := Assoc.exists_of_mem_keys hname
  rw [needed, h.get?_eq hd, Option.map_some, Option.getD_some]
  constructor
  · exact fun hmem => ⟨d, hd, awaits_of_mem_needs hmem⟩
  · intro ha
    obtain ⟨e, he⟩ := Assoc.exists_of_mem_keys (h.mem_keys_of_awaits ha)
    obtain ⟨d', hd', ha⟩ := ha
    obtain rfl : d = d' := Option.some.inj ((h.get?_eq hd).symm.trans (h.get?_eq hd'))
    exact mem_needs ha (by rw [h.get?_eq he]; rfl)

theorem ranked (h : m.Typed types) : Ranked types m.rank where
  apart := h.keys_eq ▸ h.distinct.apart
  needed_mem _ hname _ hmem := h.mem_keys_of_awaits ((h.mem_needed_iff hname).1 hmem)
  rank_lt _ hname _ hmem := h.rank_lt ((h.mem_needed_iff hname).1 hmem)

/-- A name that a type awaits is listed before the name of the type. -/
theorem idxOf_lt (h : m.Typed types) (ha : types.Awaits name other) :
    (dependencyOrder types).idxOf other < (dependencyOrder types).idxOf name := by
  have hname : name ∈ keys types := by
    obtain ⟨d, hd, -⟩ := ha
    exact Assoc.mem_keys_of_mem hd
  have hperm := dependencyOrder_perm h.ranked h.nodup
  obtain ⟨before, after, hsplit⟩ := List.append_of_mem (hperm.mem_iff.2 hname)
  have hmem : other ∈ before :=
    dependencyOrder_behind h.ranked hsplit other ((h.mem_needed_iff hname).2 ha)
  have hnot : name ∉ before := by
    intro hin
    have hnodup := hperm.nodup_iff.2 h.nodup
    rw [hsplit] at hnodup
    exact (List.nodup_append.1 hnodup).2.2 name hin name (by simp) rfl
  rw [hsplit, List.idxOf_append_of_mem hmem, List.idxOf_append_of_notMem hnot, List.idxOf_cons_self]
  exact List.idxOf_lt_length_of_mem hmem

end Typed

open Resolve (TuplesApart NamesApart rootPlaces)

/-- The order of the types of a document. Every name is listed once; where a type refers to a name and
the reference is not marked as recursive, the name is listed before; so no circle of references is
without a mark. -/
theorem dependencyOrder_namedTypes {doc : Value} {policy : MergePolicy} {table : SchemaTable}
    (htable : SchemaTable.ofDocument doc policy = .ok table)
    (htuples : TuplesApart doc (rootPlaces doc)) (hnames : NamesApart doc)
    (hm : ofTable table = .ok m) (htypes : m.namedTypes.run.run {} = (.ok types, st)) :
    (types.map Prod.fst).Nodup ∧ (dependencyOrder types).Perm (types.map Prod.fst) ∧
      (∀ name d, (name, d) ∈ types → ∀ ref t, .reference ref t ∈ d.walk → t.recursive = false →
        (dependencyOrder types).idxOf ref < (dependencyOrder types).idxOf name) ∧
      ∀ name, ¬ Relation.TransGen types.Awaits name name := by
  obtain ⟨names, a, hc⟩ := SchemaTable.ofDocument_ok htable
  obtain rfl := (ofTable_names hc hm).table_eq
  have h := typed_namedTypes (hc.inOrder htuples) (distinct_ofTable hc hnames hm) htypes
  refine ⟨h.nodup, dependencyOrder_perm h.ranked h.nodup,
    fun name d hd ref t hwalk hrec => h.idxOf_lt ⟨d, hd, t, hwalk, hrec⟩, fun name hcircle => ?_⟩
  have hlt : ∀ {n n'}, Relation.TransGen types.Awaits n n' → m.rank n' < m.rank n := by
    intro n n' hpath
    induction hpath with
    | single ha => exact h.rank_lt ha
    | tail _ ha ih => exact Nat.lt_trans (h.rank_lt ha) ih
  exact Nat.lt_irrefl _ (hlt hcircle)

/-- Folders and users that refer to each other. -/
def folders : Value :=
  .record [("components", .record [("schemas", .record [
    ("Folder", .record [("properties", .record [
      ("owner", .record [("$ref", .str "#/components/schemas/User")]),
      ("parent", .record [("$ref", .str "#/components/schemas/Folder")])])]),
    ("User", .record [("properties", .record [
      ("home", .record [("$ref", .str "#/components/schemas/Folder")])])])])])]

theorem folders_dependencyOrder : ∃ table m types st,
    SchemaTable.ofDocument folders .lastWins = .ok table ∧ ofTable table = .ok m ∧
      m.namedTypes.run.run {} = (.ok types, st) ∧
      dependencyOrder types = [.str "User", .str "Folder"] ∧
      TuplesApart folders (rootPlaces folders) ∧ NamesApart folders ∧
      (types.map Prod.fst).Nodup ∧ (dependencyOrder types).Perm (types.map Prod.fst) ∧
      (∀ name d, (name, d) ∈ types → ∀ ref t, .reference ref t ∈ d.walk → t.recursive = false →
        (dependencyOrder types).idxOf ref < (dependencyOrder types).idxOf name) ∧
      ∀ name, ¬ Relation.TransGen types.Awaits name name := by
  have hread : Resolve.Covers folders (rootPlaces folders)
      (Resolve.readWithin folders 3 (rootPlaces folders)) ∧
        Resolve.ApartAmong (Resolve.readWithin folders 3 (rootPlaces folders)) := by decide +kernel
  have hnames : NamesApart folders := by decide +kernel
  have hok : ∃ table ∈ (SchemaTable.ofDocument folders .lastWins).toOption,
      ∃ m ∈ (ofTable table).toOption, ∃ types ∈ (m.namedTypes.run.run {}).1.toOption,
        dependencyOrder types = [.str "User", .str "Folder"] := by decide +kernel
  obtain ⟨table, htable, hok⟩ := Outcome.exists_ok.2 hok
  obtain ⟨m, hm, hok⟩ := Outcome.exists_ok.2 hok
  obtain ⟨types, htypes, horder⟩ := Outcome.exists_ok.2 hok
  have htypes : m.namedTypes.run.run {} = (.ok types, _) := Prod.ext htypes rfl
  have htuples := hread.1.tuplesApart hread.2
  exact ⟨table, m, types, _, htable, hm, htypes, horder, htuples, hnames,
    dependencyOrder_namedTypes htable htuples hnames hm htypes⟩

/-- The items that `Pair` lists for its first type stand where `First` finds the schema of a
property. -/
def circular : Value :=
  .record [("components", .record [("schemas", .record [
    ("First", .record [("properties", .record [
      ("a", .record [("$ref", .str "#/components/schemas/Pair/type/0/items")])])]),
    ("Pair", .record [
      ("type", .list [.record [("items", .record [("type", .str "string")])], .str "array"]),
      ("items", .list [.record [("$ref", .str "#/components/schemas/First")]])])])])]

/-- The union of the items replaces the schema, and `First` then needs itself at once. -/
theorem circular_needs_itself : ∃ table m types st,
    SchemaTable.ofDocument circular .lastWins = .ok table ∧ ofTable table = .ok m ∧
      m.namedTypes.run.run {} = (.ok types, st) ∧
      ∃ d ∈ types.get? (.str "First"), .str "First" ∈ needs types d := by
  have hok : ∃ table ∈ (SchemaTable.ofDocument circular .lastWins).toOption,
      ∃ m ∈ (ofTable table).toOption, ∃ types ∈ (m.namedTypes.run.run {}).1.toOption,
        ∃ d ∈ types.get? (.str "First"), .str "First" ∈ needs types d := by decide +kernel
  obtain ⟨table, htable, hok⟩ := Outcome.exists_ok.2 hok
  obtain ⟨m, hm, hok⟩ := Outcome.exists_ok.2 hok
  obtain ⟨types, htypes, hneeds⟩ := Outcome.exists_ok.2 hok
  exact ⟨table, m, types, _, htable, hm, Prod.ext htypes rfl, hneeds⟩

end Mapper
end OpenApi
