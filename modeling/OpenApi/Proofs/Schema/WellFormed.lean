import Mathlib.Logic.Relation
import OpenApi.Proofs.Schema.Entering

/-!
The table of a document. It is closed: whatever a node mentions is in the table. Where no listed items
stand at the place of a schema, the table is also in order: a node comes behind all that it mentions,
and only a marker comes before. So the nodes form no cycle but through markers.
-/
namespace OpenApi
namespace SchemaTable

variable {table : SchemaTable} {k m : String} {n : Node} {before behind : List (String × Node)}

/-- The place of a node in the order in which nodes were completed. -/
def position (table : SchemaTable) (id : String) : Nat := (Assoc.keys table.nodes).idxOf id

/-- Nodes stand under their own ids, and what is mentioned or pointed to is in the table. -/
structure Closed (table : SchemaTable) : Prop where
  nodup : (Assoc.keys table.nodes).Nodup
  id_eq : ∀ {k n}, (k, n) ∈ table.nodes → n.id = k
  mentions : ∀ {k n}, (k, n) ∈ table.nodes → ∀ m ∈ n.mentions, m ∈ Assoc.keys table.nodes
  pointer_mem : ∀ {r k}, (r, k) ∈ table.pointers → k ∈ Assoc.keys table.nodes
  pointer_self : ∀ {k}, k ∈ Assoc.keys table.nodes → table.pointers.lookup k = some k

/-- Markers stand before the schema they lead to, all other nodes behind what they mention. -/
structure InOrder (table : SchemaTable) : Prop where
  earlier : ∀ {k n}, (k, n) ∈ table.nodes → n.isMarker = false →
    ∀ m ∈ n.mentions, table.position m < table.position k
  later : ∀ {k n}, (k, n) ∈ table.nodes → n.isMarker = true →
    ∃ m, n.target = some m ∧ table.position k < table.position m

instance (table : SchemaTable) : Decidable table.InOrder :=
  decidable_of_iff (∀ e ∈ table.nodes,
    (e.2.isMarker = false → ∀ m ∈ e.2.mentions, table.position m < table.position e.1) ∧
      (e.2.isMarker = true → ∃ m ∈ e.2.target, table.position e.1 < table.position m))
    ⟨fun h => ⟨fun hn => (h _ hn).1, fun hn => (h _ hn).2⟩,
      fun h _ hn => ⟨h.earlier hn, h.later hn⟩⟩

/-- The edges between nodes, without those of markers. -/
def Leads (table : SchemaTable) (k m : String) : Prop :=
  ∃ n, (k, n) ∈ table.nodes ∧ n.isMarker = false ∧ m ∈ n.mentions

theorem InOrder.position_lt_of_leads (h : table.InOrder) (hpath : Relation.TransGen table.Leads k m) :
    table.position m < table.position k := by
  have hedge : ∀ {k m}, table.Leads k m → table.position m < table.position k :=
    fun ⟨_, hn, hmark, hm⟩ => h.earlier hn hmark _ hm
  induction hpath with
  | single he => exact hedge he
  | tail _ he ih => exact Nat.lt_trans (hedge he) ih

/-! ### Positions -/

theorem position_eq (hk : (Assoc.keys table.nodes).Nodup) (h : table.nodes = before ++ (k, n) :: behind) :
    table.position k = before.length := by
  unfold position
  rw [h, Assoc.keys_append, Assoc.keys_cons] at hk ⊢
  have hnot : k ∉ Assoc.keys before := fun hin =>
    (List.nodup_append.1 hk).2.2 k hin k (List.mem_cons_self ..) rfl
  rw [List.idxOf_append_of_notMem hnot, List.idxOf_cons_self]
  simp [Assoc.keys]

theorem position_lt_of_before (hk : (Assoc.keys table.nodes).Nodup)
    (h : table.nodes = before ++ (k, n) :: behind) (hm : m ∈ Assoc.keys before) :
    table.position m < table.position k := by
  rw [position_eq hk h]
  unfold position
  rw [h, Assoc.keys_append, List.idxOf_append_of_mem hm]
  have hlt := List.idxOf_lt_length_of_mem hm
  simpa [Assoc.keys] using hlt

theorem position_lt_of_behind (hk : (Assoc.keys table.nodes).Nodup)
    (h : table.nodes = before ++ (k, n) :: behind) (hm : m ∈ Assoc.keys behind) :
    table.position k < table.position m := by
  obtain ⟨o, ho⟩ := Assoc.exists_of_mem_keys hm
  obtain ⟨left, right, rfl⟩ := List.append_of_mem ho
  have hm : table.nodes = (before ++ (k, n) :: left) ++ (m, o) :: right := by simpa using h
  exact position_lt_of_before hk hm (by simp)

theorem node_ok_iff {id : String} : table.node id = .ok n ↔ table.nodes.lookup id = some n := by
  unfold node
  cases table.nodes.lookup id <;> simp

theorem exists_node {id : String} (h : id ∈ Assoc.keys table.nodes) :
    ∃ n, table.node id = .ok n ∧ (id, n) ∈ table.nodes := by
  obtain ⟨n, hn⟩ := Assoc.exists_lookup h
  exact ⟨n, node_ok_iff.2 hn, Assoc.mem_of_lookup hn⟩

/-! ### Markers -/

theorem mem_markers_iff : n ∈ table.markers ↔ (∃ k, (k, n) ∈ table.nodes) ∧ n.isMarker = true := by
  rw [markers, List.mem_filter, List.mem_map]
  refine and_congr_left fun _ => ⟨?_, ?_⟩
  · rintro ⟨⟨k, n⟩, hn, rfl⟩
    exact ⟨k, hn⟩
  · rintro ⟨k, hn⟩
    exact ⟨(k, n), hn, rfl⟩

/-- A marker that leads to itself has no schema behind it. -/
theorem concrete_of_target_self {c : Node} (hn : table.nodes.lookup k = some n) (hid : n.id = k)
    (ht : n.target = some k) : table.concrete k ≠ .ok c := by
  intro h
  have hnode : table.node k = .ok n := by simp [node, hn]
  unfold concrete at h
  rw [hnode] at h
  have hchase : chase table (table.nodes.length + 2) [] n = .ok c := h
  simp [chase, ht, hid, hnode, bind, Except.bind] at hchase

theorem concrete_of_checkMarkers (h : table.checkMarkers = .ok ()) (hn : (k, n) ∈ table.nodes)
    (hmark : n.isMarker = true) : ∃ c, table.concrete n.id = .ok c := by
  have hcheck := Outcome.forM_ok.1 h n (mem_markers_iff.2 ⟨⟨k, hn⟩, hmark⟩)
  cases ht : n.target with
  | none =>
    rw [ht] at hcheck
    obtain ⟨c, hc, -⟩ := Outcome.bind_ok.1 hcheck
    exact ⟨c, hc⟩
  | some target =>
    rw [ht] at hcheck
    dsimp only at hcheck
    split at hcheck
    · obtain ⟨_, hthrow, -⟩ := Outcome.bind_ok.1 hcheck
      exact (Outcome.throw_ok.1 hthrow).elim
    · obtain ⟨c, hc, -⟩ := Outcome.bind_ok.1 hcheck
      exact ⟨c, hc⟩

end SchemaTable

namespace Resolve
open SchemaTable

variable {setting : Setting} {roots : List SchemaPlace} {a : Arena} {table : SchemaTable}

theorem Sound.closed (ha : Sound setting roots a) (hactive : a.active = [])
    (hnodes : table.nodes = a.nodes) (hpointers : table.pointers = a.pointers) :
    table.Closed := by
  have hnone : ∀ k, k ∉ a.active := by simp [hactive]
  constructor
  case nodup => exact hnodes ▸ ha.nodup
  case id_eq => exact hnodes ▸ ha.id_eq
  case mentions =>
    rw [hnodes]
    intro k n hn m hm
    exact (ha.mentions hn m hm).resolve_right fun hact => hnone m hact.2
  case pointer_mem =>
    rw [hnodes, hpointers]
    intro r k hk
    exact (ha.pointer_mem hk).resolve_right (hnone k)
  case pointer_self =>
    rw [hnodes, hpointers]
    exact fun hk => ha.pointer_self (.inl hk)

theorem Sound.inOrder (ha : Sound setting roots a) (hapart : TuplesApart setting.doc roots)
    (hactive : a.active = []) (hnodes : table.nodes = a.nodes) (hcheck : table.checkMarkers = .ok ()) :
    table.InOrder := by
  have hord := ha.ordered hapart
  have hnodup : (Assoc.keys table.nodes).Nodup := hnodes ▸ ha.nodup
  rw [hactive, ← hnodes] at hord
  constructor
  case earlier =>
    intro k n hn hmark m hm
    obtain ⟨before, behind, hsplit⟩ := List.append_of_mem hn
    exact position_lt_of_before hnodup hsplit (hord.earlier hsplit hmark m hm)
  case later =>
    intro k n hn hmark
    obtain ⟨before, behind, hsplit⟩ := List.append_of_mem hn
    have hmem : (k, n) ∈ a.nodes := hnodes ▸ hn
    obtain ⟨m, htarget⟩ := Option.isSome_iff_exists.1 ((ha.origin hmem).target_isSome_iff.2
      (.inr (by simpa [Node.isMarker] using hmark)))
    refine ⟨m, htarget, ?_⟩
    rcases hord.later hsplit hmark m (Node.target_mem_mentions htarget) with hin | hin | rfl
    · exact position_lt_of_behind hnodup hsplit hin
    · cases hin
    · -- the check of markers has followed this one
      obtain ⟨c, hc⟩ := concrete_of_checkMarkers hcheck hn hmark
      rw [ha.id_eq hmem] at hc
      exact absurd hc (concrete_of_target_self (Assoc.lookup_of_mem hnodup hn) (ha.id_eq hmem)
        htarget)

end Resolve

open Resolve

/-- A table that was read off an arena in which nothing is left to build. -/
structure Resolve.Completed (setting : Setting) (a : Arena) (table : SchemaTable) : Prop where
  names : componentNames setting.doc = .ok setting.names
  fault : (SchemaPlaces.ofDocument setting.doc setting.names).fault = none
  sound : Sound setting (rootPlaces setting.doc) a
  active : a.active = []
  nodes : table.nodes = a.nodes
  pointers : table.pointers = a.pointers
  roots : table.roots = Assoc.distinct ((rootPlaces setting.doc).map (·.pointer))
  root_mem : ∀ s ∈ rootPlaces setting.doc, s.pointer ∈ Assoc.keys table.nodes
  checked : table.checkMarkers = .ok ()

theorem SchemaTable.ofDocument_ok {doc : Value} {policy : MergePolicy} {table : SchemaTable}
    (h : SchemaTable.ofDocument doc policy = .ok table) :
    ∃ names a, Completed ⟨doc, policy, names⟩ a table := by
  unfold SchemaTable.ofDocument at h
  obtain ⟨names, hnames, h⟩ := Outcome.bind_ok.1 h
  obtain ⟨⟨ids, a⟩, henter, h⟩ := Outcome.bind_ok.1 h
  have hroots : rootPlaces doc = (SchemaPlaces.ofDocument doc names).found := by
    simp [rootPlaces, hnames]
  obtain ⟨ha, hactive, hids, hmem⟩ := sound_enterAll henter
  rw [← hroots] at ha hids hmem
  dsimp only at h
  split at h
  · exact (Outcome.throw_ok.1 h).elim
  · next hfault =>
    obtain ⟨_, hcheck, h⟩ := Outcome.bind_ok.1 h
    cases Outcome.pure_ok.1 h
    exact ⟨names, a, hnames, hfault, ha, hactive, rfl, rfl, hids, hmem, hcheck⟩

namespace Resolve.Completed
variable {setting : Setting} {a : Arena} {table : SchemaTable}

theorem closed (h : Completed setting a table) : table.Closed :=
  h.sound.closed h.active h.nodes h.pointers

theorem inOrder (h : Completed setting a table)
    (hapart : TuplesApart setting.doc (rootPlaces setting.doc)) : table.InOrder :=
  h.sound.inOrder hapart h.active h.nodes h.checked

theorem mem_of_root (h : Completed setting a table) :
    ∀ id ∈ table.roots, id ∈ Assoc.keys table.nodes := by
  intro id hid
  rw [h.roots, Assoc.mem_distinct] at hid
  obtain ⟨s, hs, rfl⟩ := List.mem_map.1 hid
  exact h.root_mem s hs

end Resolve.Completed

/-- Every table is closed. Where listed items keep their places to themselves it is in order as well,
so that no node leads back to itself but through a marker. -/
theorem SchemaTable.ofDocument_wellFormed {doc : Value} {policy : MergePolicy} {table : SchemaTable}
    (h : SchemaTable.ofDocument doc policy = .ok table) :
    table.Closed ∧ (TuplesApart doc (rootPlaces doc) →
      table.InOrder ∧ ∀ k, ¬ Relation.TransGen table.Leads k k) := by
  obtain ⟨names, a, hc⟩ := ofDocument_ok h
  refine ⟨hc.closed, fun hapart => ?_⟩
  have horder := hc.inOrder hapart
  exact ⟨horder, fun k hk => Nat.lt_irrefl _ (horder.position_lt_of_leads hk)⟩

namespace Resolve

/-- A linked list whose links carry listed items. -/
def chain : Value :=
  let link : String × Value := ("Link", .record [
    ("required", .list [.str "value"]),
    ("properties", .record [
      ("value", .record [("type", .str "integer")]),
      ("pair", .record [("items", .list [.record [("type", .str "string")],
        .record [("$ref", .str "#/components/schemas/Link/properties/value")]])]),
      ("next", .record [("$ref", .str "#/components/schemas/Link")])])])
  .record [("components", .record [("schemas", .record [link])])]

theorem chain_wellFormed : ∃ table, SchemaTable.ofDocument chain .lastWins = .ok table ∧
    table.markers.length = 1 ∧ TuplesApart chain (rootPlaces chain) ∧ table.Closed ∧
      table.InOrder ∧ ∀ k, ¬ Relation.TransGen table.Leads k k := by
  have hok : ∃ table, SchemaTable.ofDocument chain .lastWins = .ok table ∧
      table.markers.length = 1 := Outcome.exists_ok.2 (by decide +kernel)
  have hread : Covers chain (rootPlaces chain) (readWithin chain 3 (rootPlaces chain)) ∧
      ApartAmong (readWithin chain 3 (rootPlaces chain)) := by decide +kernel
  have hapart := hread.1.tuplesApart hread.2
  obtain ⟨table, htable, hmarkers⟩ := hok
  have hwf := SchemaTable.ofDocument_wellFormed htable
  exact ⟨table, htable, hmarkers, hapart, hwf.1, hwf.2 hapart⟩

/-- The items that `Pair` lists for its first type stand where `First` finds a schema. -/
def contested : Value :=
  .record [("components", .record [("schemas", .record [
    ("First", .record [("$ref", .str "#/components/schemas/Pair/type/0/items")]),
    ("Pair", .record [
      ("type", .list [.record [("items", .record [("type", .str "string")])], .str "array"]),
      ("items", .list [.record [("type", .str "integer")]])])])])]

/-- The union of the items replaces the schema, which then stands before what it mentions. -/
theorem contested_not_inOrder : ∃ table, SchemaTable.ofDocument contested .lastWins = .ok table ∧
    ¬ table.InOrder :=
  Outcome.exists_ok.2 (by decide +kernel)

end Resolve
end OpenApi
