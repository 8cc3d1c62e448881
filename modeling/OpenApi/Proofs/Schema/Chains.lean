import Mathlib.Data.List.Perm.Subperm
import OpenApi.Proofs.Schema.WellFormed

/-!
Chains of references. Ids that were passed are not passed again, so following targets through a table
that is closed takes no more steps than the table has nodes. In the table of a document every chain
ends at a schema.
-/
namespace OpenApi
namespace SchemaTable
open Assoc (keys)

variable {table : SchemaTable} {fuel steps : Nat} {seen : List String} {id : String} {n c : Node}

/-! ### Ids that were passed -/

/-- The ids passed so far, with fuel for all that are left. -/
structure Passed (table : SchemaTable) (fuel : Nat) (seen : List String) : Prop where
  nodup : seen.Nodup
  mem : ∀ id ∈ seen, id ∈ keys table.nodes
  enough : table.nodes.length < fuel + seen.length

theorem Passed.start (h : table.nodes.length < fuel) : table.Passed fuel [] :=
  ⟨List.nodup_nil, nofun, h⟩

/-- Different ids of a table are no more than its nodes, so the fuel has not run out. -/
theorem Passed.exists_succ (h : table.Passed fuel seen) : ∃ rest, fuel = rest + 1 := by
  have hlength : seen.length ≤ (keys table.nodes).length := (h.nodup.subperm h.mem).length_le
  have hkeys : (keys table.nodes).length = table.nodes.length := List.length_map ..
  have henough := h.enough
  exact ⟨fuel - 1, by omega⟩

theorem Passed.step (h : table.Passed (fuel + 1) seen) (hid : id ∈ keys table.nodes) (hnew : id ∉ seen) :
    table.Passed fuel (id :: seen) where
  nodup := List.nodup_cons.2 ⟨hnew, h.nodup⟩
  mem := List.forall_mem_cons.2 ⟨hid, h.mem⟩
  enough := by
    have henough := h.enough
    rw [List.length_cons]
    omega

namespace Closed

variable {id : String} {n : Node}

theorem mem_of_node (h : table.Closed) (hn : table.node id = .ok n) : (n.id, n) ∈ table.nodes := by
  have hmem := Assoc.mem_of_lookup (node_ok_iff.1 hn)
  rwa [h.id_eq hmem]

theorem node_id (h : table.Closed) (hn : (id, n) ∈ table.nodes) : table.node id = .ok n :=
  node_ok_iff.2 (Assoc.lookup_of_mem h.nodup hn)

/-- An id is the id of one node. -/
theorem node_unique (h : table.Closed) {o : Node} (hn : (id, n) ∈ table.nodes)
    (ho : (id, o) ∈ table.nodes) : n = o :=
  Except.ok.inj ((h.node_id hn).symm.trans (h.node_id ho))

/-- A target is a node of the table. -/
theorem exists_target (h : table.Closed) {target : String} (hn : (id, n) ∈ table.nodes)
    (ht : n.target = some target) :
    ∃ next, table.node target = .ok next ∧ (next.id, next) ∈ table.nodes := by
  obtain ⟨next, hnext, -⟩ := exists_node (h.mentions hn target (Node.target_mem_mentions ht))
  exact ⟨next, hnext, h.mem_of_node hnext⟩

end Closed

/-! ### Chains that end -/

/-- Following targets from a node leads to a node without a target, in so many steps. -/
inductive Ends (table : SchemaTable) : Nat → Node → Node → Prop
  | here {n : Node} (ht : n.target = none) : Ends table 0 n n
  | next {steps : Nat} {target : String} {n next c : Node} (ht : n.target = some target)
      (hnext : table.node target = .ok next) (h : Ends table steps next c) :
      Ends table (steps + 1) n c

theorem Ends.target_eq_none (h : table.Ends steps n c) : c.target = none := by
  induction h with
  | here ht => exact ht
  | next _ _ _ ih => exact ih

/-- The node decides how long its chain is. -/
theorem Ends.steps_unique {steps' : Nat} {c' : Node} (h : table.Ends steps n c)
    (h' : table.Ends steps' n c') : steps = steps' := by
  induction h generalizing steps' with
  | here ht =>
    cases h' with
    | here _ => rfl
    | next ht' _ _ =>
      rw [ht] at ht'
      cases ht'
  | next ht hnext _ ih =>
    cases h' with
    | here ht' =>
      rw [ht] at ht'
      cases ht'
    | next ht' hnext' h' =>
      obtain rfl := Option.some.inj (ht.symm.trans ht')
      obtain rfl := Except.ok.inj (hnext.symm.trans hnext')
      rw [ih h']

theorem ends_of_chase (h : chase table fuel seen n = .ok c) : ∃ steps, table.Ends steps n c := by
  induction fuel generalizing seen n with
  | zero => cases h
  | succ fuel ih =>
    unfold chase at h
    cases ht : n.target with
    | none =>
      rw [ht] at h
      cases h
      exact ⟨0, .here ht⟩
    | some target =>
      rw [ht] at h
      dsimp only at h
      split at h
      · cases h
      · obtain ⟨next, hnext, h⟩ := Outcome.bind_ok.1 h
        obtain ⟨steps, hends⟩ := ih h
        exact ⟨steps + 1, .next ht hnext hends⟩

/-- The chains of the ids that were passed are longer than so many steps. -/
def Longer (table : SchemaTable) (steps : Nat) (seen : List String) : Prop :=
  ∀ id ∈ seen, ∀ o, (id, o) ∈ table.nodes → ∃ more c, steps < more ∧ table.Ends more o c

theorem Longer.not_mem (hlonger : table.Longer steps seen) (h : table.Ends steps n c)
    (hn : (n.id, n) ∈ table.nodes) :
    n.id ∉ seen := by
  intro hin
  obtain ⟨more, c', hlt, hmore⟩ := hlonger n.id hin n hn
  have heq := h.steps_unique hmore
  omega

/-- A node that is passed has a chain that is longer than what is left of it by a step. -/
theorem Longer.step (hclosed : table.Closed) (hlonger : table.Longer (steps + 1) seen)
    (h : table.Ends (steps + 1) n c) (hn : (n.id, n) ∈ table.nodes) :
    table.Longer steps (n.id :: seen) := by
  intro id hid o ho
  rcases List.mem_cons.1 hid with rfl | hid
  · obtain rfl := hclosed.node_unique hn ho
    exact ⟨steps + 1, c, by omega, h⟩
  · obtain ⟨more, c', hlt, hmore⟩ := hlonger id hid o ho
    exact ⟨more, c', by omega, hmore⟩

/-- A chain that ends is followed to its end. -/
theorem chase_of_ends (hclosed : table.Closed) (h : table.Ends steps n c) (hn : (n.id, n) ∈ table.nodes)
    (hpassed : table.Passed fuel seen) (hlonger : table.Longer steps seen) :
    chase table fuel seen n = .ok c := by
  induction h generalizing fuel seen with
  | here ht =>
    obtain ⟨fuel, rfl⟩ := hpassed.exists_succ
    rw [chase, ht]
  | @next steps target n next c ht hnext h ih =>
    obtain ⟨fuel, rfl⟩ := hpassed.exists_succ
    have hwhole : table.Ends (steps + 1) n c := .next ht hnext h
    have hnew := hlonger.not_mem hwhole hn
    have hrest : chase table fuel (n.id :: seen) next = .ok c :=
      ih (hclosed.mem_of_node hnext) (hpassed.step (Assoc.mem_keys_of_mem hn) hnew)
        (hlonger.step hclosed hwhole hn)
    have hcontains : ¬ seen.contains n.id = true := by simpa using hnew
    rw [chase, ht]
    dsimp only
    rw [if_neg hcontains, hnext]
    exact hrest

theorem concrete_of_ends (hclosed : table.Closed) (hn : table.node id = .ok n)
    (h : table.Ends steps n c) : table.concrete id = .ok c := by
  unfold concrete
  rw [hn]
  exact chase_of_ends hclosed h (hclosed.mem_of_node hn) (.start (by omega)) nofun

/-- What it takes for all chains of references to end. -/
structure Followable (table : SchemaTable) : Prop where
  closed : table.Closed
  settles : ∀ {k n}, (k, n) ∈ table.nodes → Resolve.Settles table.nodes n
  checked : table.checkMarkers = .ok ()

/-- A chain of references ends with a marker at the latest, and markers were followed when the table
was made. -/
theorem Followable.exists_ends (h : table.Followable) (hn : (n.id, n) ∈ table.nodes) :
    ∃ steps c, table.Ends steps n c := by
  induction h.settles hn with
  | @stop n hstop =>
    rcases hstop with hmark | ht
    · obtain ⟨c, hc⟩ := concrete_of_checkMarkers h.checked hn hmark
      unfold concrete at hc
      rw [h.closed.node_id hn] at hc
      obtain ⟨steps, hends⟩ := ends_of_chase hc
      exact ⟨steps, c, hends⟩
    · exact ⟨0, n, .here ht⟩
  | @next n next target ht hnext _ ih =>
    have hok := node_ok_iff.2 hnext
    obtain ⟨steps, c, hends⟩ := ih (h.closed.mem_of_node hok)
    exact ⟨steps + 1, c, .next ht hok hends⟩

/-- There is a schema behind every id. -/
theorem Followable.exists_concrete (h : table.Followable) (hid : id ∈ keys table.nodes) :
    ∃ c, table.concrete id = .ok c ∧ c.target = none := by
  obtain ⟨n, hn, -⟩ := exists_node hid
  obtain ⟨steps, c, hends⟩ := h.exists_ends (h.closed.mem_of_node hn)
  exact ⟨c, concrete_of_ends h.closed hn hends, hends.target_eq_none⟩

/-- A node with a target leads to the schema behind its target. -/
theorem Followable.concrete_target (h : table.Followable) {target : String} (hn : table.node id = .ok n)
    (ht : n.target = some target) :
    table.concrete id = table.concrete target := by
  obtain ⟨next, hnext, hmem⟩ := h.closed.exists_target (h.closed.mem_of_node hn) ht
  obtain ⟨steps, c, hends⟩ := h.exists_ends hmem
  rw [concrete_of_ends h.closed hnext hends, concrete_of_ends h.closed hn (.next ht hnext hends)]

end SchemaTable

theorem Resolve.Completed.followable {setting : Resolve.Setting} {a : Resolve.Arena}
    {table : SchemaTable} (h : Resolve.Completed setting a table) : table.Followable where
  closed := h.closed
  settles := h.nodes ▸ h.sound.settles
  checked := h.checked

end OpenApi
