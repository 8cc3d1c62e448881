import OpenApi.Proofs.Pointer
import OpenApi.Proofs.Schema.Origin

/-!
Arenas that resolving passes through. `Sound` says what holds of an arena at every moment, with
schemas half built; `Grows` says how one arena comes to follow another. Where no listed items stand at
the place of a schema, nodes are only ever added at the end.
-/
namespace OpenApi.Resolve

/-- Nodes stand behind all that they mention, and markers before; `unfinished` holds the ids of the
schemas that are still to come. A marker that leads to itself is not ruled out. -/
structure Ordered (unfinished : List String) (nodes : List (String × Node)) : Prop where
  earlier : ∀ {before k n behind}, nodes = before ++ (k, n) :: behind → n.isMarker = false →
    ∀ m ∈ n.mentions, m ∈ Assoc.keys before
  later : ∀ {before k n behind}, nodes = before ++ (k, n) :: behind → n.isMarker = true →
    ∀ m ∈ n.mentions, m ∈ Assoc.keys behind ∨ m ∈ unfinished ∨ m = k

theorem Ordered.mono {u v : List String} {nodes : List (String × Node)} (h : Ordered u nodes)
    (huv : ∀ m ∈ u, m ∈ v) : Ordered v nodes where
  earlier := h.earlier
  later heq hn m hm := (h.later heq hn m hm).imp_right (Or.imp_left (huv m))

theorem Ordered.append {unfinished : List String} {nodes : List (String × Node)} {k : String}
    {n : Node} (h : Ordered (k :: unfinished) nodes)
    (hstored : n.isMarker = false → ∀ m ∈ n.mentions, m ∈ Assoc.keys nodes)
    (hmarker : n.isMarker = true → ∀ m ∈ n.mentions, m ∈ k :: unfinished) :
    Ordered unfinished (nodes ++ [(k, n)]) := by
  -- the last entry is the new one, and any other stands in the old list
  have hsplit : ∀ {before j o behind}, nodes ++ [(k, n)] = before ++ (j, o) :: behind →
      (before = nodes ∧ j = k ∧ o = n ∧ behind = []) ∨
        ∃ behind', behind = behind' ++ [(k, n)] ∧ nodes = before ++ (j, o) :: behind' := by
    intro before j o behind heq
    rcases List.eq_nil_or_concat behind with rfl | ⟨behind, last, rfl⟩
    · obtain ⟨rfl, he⟩ := List.append_inj' heq rfl
      cases he
      exact .inl ⟨rfl, rfl, rfl, rfl⟩
    · rw [List.concat_eq_append, ← List.cons_append, ← List.append_assoc] at heq
      obtain ⟨rfl, he⟩ := List.append_inj' heq rfl
      cases he
      exact .inr ⟨behind, List.concat_eq_append, rfl⟩
  constructor
  case earlier =>
    intro before j o behind heq hn m hm
    obtain ⟨rfl, rfl, rfl, rfl⟩ | ⟨behind', rfl, hnodes⟩ := hsplit heq
    · exact hstored hn m hm
    · exact h.earlier hnodes hn m hm
  case later =>
    intro before j o behind heq hn m hm
    obtain ⟨rfl, rfl, rfl, rfl⟩ | ⟨behind', rfl, hnodes⟩ := hsplit heq
    · exact .inr ((List.mem_cons.1 (hmarker hn m hm)).symm)
    · -- what an earlier marker waited for may be the new node
      rcases h.later hnodes hn m hm with hb | hu | rfl
      · exact .inl (by simp [hb])
      · rcases List.mem_cons.1 hu with rfl | hu
        · exact .inl (by simp)
        · exact .inr (.inl hu)
      · exact .inr (.inr rfl)

/-- Following the targets of references ends, at the latest with a marker. -/
inductive Settles (nodes : List (String × Node)) : Node → Prop
  | stop {n : Node} (h : n.isMarker = true ∨ n.target = none) : Settles nodes n
  | next {n next : Node} {target : String} (ht : n.target = some target)
      (hnext : nodes.lookup target = some next) (h : Settles nodes next) : Settles nodes n

/-- A node that is stored anew does no harm to chains if it has no target, or if no chain passes. -/
theorem Settles.insert {nodes : List (String × Node)} {j k : String} {n o : Node}
    (h : Settles nodes o) (ho : (j, o) ∈ nodes)
    (hk : n.target = none ∨ ∀ i m, (i, m) ∈ nodes → m.isMarker = false → m.target ≠ some k) :
    Settles (Assoc.insert nodes k n) o := by
  induction h generalizing j with
  | stop h => exact .stop h
  | @next o next target ht hnext h ih =>
    cases hmark : o.isMarker with
    | true => exact .stop (.inl hmark)
    | false =>
      by_cases heq : target = k
      · -- the chain reaches the node that is stored
        subst heq
        rcases hk with hnone | hpass
        · exact .next ht (Assoc.lookup_insert_self ..) (.stop (.inr hnone))
        · exact absurd ht (hpass j o ho hmark)
      · apply Settles.next ht _ (ih (Assoc.mem_of_lookup hnext))
        rw [Assoc.lookup_insert_of_ne _ heq]
        exact hnext

/-! ### Arenas at every moment -/

/-- What holds of an arena while schemas are being built. -/
structure Sound (setting : Setting) (roots : List SchemaPlace) (a : Arena) : Prop where
  id_eq : ∀ {k n}, (k, n) ∈ a.nodes → n.id = k
  nodup : (Assoc.keys a.nodes).Nodup
  origin : ∀ {k n}, (k, n) ∈ a.nodes → Origin setting roots n
  mentions : ∀ {k n}, (k, n) ∈ a.nodes → ∀ m ∈ n.mentions,
    m ∈ Assoc.keys a.nodes ∨ (n.isMarker = true ∧ m ∈ a.active)
  pointer_mem : ∀ {r k}, (r, k) ∈ a.pointers → k ∈ Assoc.keys a.nodes ∨ k ∈ a.active
  pointer_self : ∀ {k}, k ∈ Assoc.keys a.nodes ∨ k ∈ a.active → a.pointers.lookup k = some k
  active_entered : ∀ k ∈ a.active, Entered setting.doc roots k
  /-- What is not entered as a schema is the place of listed items. -/
  key_entered : ∀ k ∈ Assoc.keys a.nodes, Entered setting.doc roots k ∨
    ∃ p, k = Pointer.child p "items" ∧ (p ∈ Assoc.keys a.nodes ∨ p ∈ a.active)
  /-- Only markers lead to what is being built. -/
  target_free : ∀ {k n}, (k, n) ∈ a.nodes → n.isMarker = false → ∀ t ∈ n.target, t ∉ a.active
  settles : ∀ {k n}, (k, n) ∈ a.nodes → Settles a.nodes n
  active_free : TuplesApart setting.doc roots → ∀ k ∈ a.active, k ∉ Assoc.keys a.nodes
  ordered : TuplesApart setting.doc roots → Ordered a.active a.nodes

section
variable {setting : Setting} {roots : List SchemaPlace} {a : Arena}

theorem Sound.empty : Sound setting roots {} where
  id_eq h := by cases h
  nodup := List.nodup_nil
  origin h := by cases h
  mentions h := by cases h
  pointer_mem h := by cases h
  pointer_self h := by rcases h with h | h <;> cases h
  active_entered _ h := by cases h
  key_entered _ h := by cases h
  target_free h := by cases h
  settles h := by cases h
  active_free _ _ h := by cases h
  ordered _ := ⟨fun h => by simp at h, fun h => by simp at h⟩

/-- Noting where a reference leads. -/
theorem Sound.note (h : Sound setting roots a) {ref target : String}
    (ht : target ∈ Assoc.keys a.nodes ∨ target ∈ a.active) :
    Sound setting roots { a with pointers := Assoc.insertNew a.pointers ref target } where
  id_eq := h.id_eq
  nodup := h.nodup
  origin := h.origin
  mentions := h.mentions
  pointer_mem hm := by
    rcases Assoc.mem_insertNew hm with hm | ⟨-, rfl⟩
    · exact h.pointer_mem hm
    · exact ht
  pointer_self hk := Assoc.lookup_insertNew_of_isSome (h.pointer_self hk)
  active_entered := h.active_entered
  key_entered := h.key_entered
  target_free := h.target_free
  settles := h.settles
  active_free := h.active_free
  ordered := h.ordered

/-- Beginning to build the schema at `p`. -/
theorem Sound.push (h : Sound setting roots a) {p : String} (hp : p ∉ Assoc.keys a.nodes)
    (he : Entered setting.doc roots p) :
    Sound setting roots { a with
      pointers := Assoc.insert a.pointers p p, active := p :: a.active } where
  id_eq := h.id_eq
  nodup := h.nodup
  origin := h.origin
  mentions hm m hmem := (h.mentions hm m hmem).imp_right (And.imp_right (List.mem_cons_of_mem _))
  pointer_mem hm := by
    rcases Assoc.mem_insert hm with hm | ⟨-, rfl⟩
    · exact (h.pointer_mem hm).imp_right (List.mem_cons_of_mem _)
    · exact .inr (List.mem_cons_self ..)
  pointer_self {k} hk := by
    by_cases hkp : k = p
    · subst hkp
      exact Assoc.lookup_insert_self ..
    · rw [Assoc.lookup_insert_of_ne _ hkp]
      exact h.pointer_self (hk.imp_right fun hk => (List.mem_cons.1 hk).resolve_left hkp)
  active_entered k hk := by
    rcases List.mem_cons.1 hk with rfl | hk
    · exact he
    · exact h.active_entered k hk
  key_entered k hk := (h.key_entered k hk).imp_right fun ⟨q, hq, hqa⟩ =>
    ⟨q, hq, hqa.imp_right (List.mem_cons_of_mem _)⟩
  target_free {k n} hn hmark t ht hin := by
    rcases List.mem_cons.1 hin with rfl | hin
    · -- a target that is no marker's is stored, and `p` is not
      rcases h.mentions hn t (Node.target_mem_mentions ht) with hmem | ⟨hcontra, -⟩
      · exact hp hmem
      · rw [hmark] at hcontra
        cases hcontra
    · exact h.target_free hn hmark t ht hin
  settles := h.settles
  active_free hap k hk := by
    rcases List.mem_cons.1 hk with rfl | hk
    · exact hp
    · exact h.active_free hap k hk
  ordered hap := (h.ordered hap).mono fun _ => List.mem_cons_of_mem _

/-- Chains end with the node of `k` stored as well: if it has a target, `k` was being built, and no
chain passes through what is being built. -/
theorem Sound.settles_insert (h : Sound setting roots a) {k : String} {n : Node}
    (hstored : n.isMarker = false → ∀ m ∈ n.mentions, m ∈ Assoc.keys a.nodes)
    (htarget : n.isMarker = false → ∀ t ∈ n.target, t ∉ a.active)
    (hopen : n.target = none ∨ k ∈ a.active) {j : String} {o : Node}
    (hm : (j, o) ∈ Assoc.insert a.nodes k n) : Settles (Assoc.insert a.nodes k n) o := by
  have hpass : n.target = none ∨
      ∀ i m, (i, m) ∈ a.nodes → m.isMarker = false → m.target ≠ some k :=
    hopen.imp_right fun hk i m hm hmark ht => h.target_free hm hmark k ht hk
  have hold : ∀ {j o}, (j, o) ∈ a.nodes → Settles (Assoc.insert a.nodes k n) o :=
    fun hm => (h.settles hm).insert hm hpass
  rcases Assoc.mem_insert hm with hm | ⟨rfl, rfl⟩
  · exact hold hm
  · cases hmark : o.isMarker with
    | true => exact .stop (.inl hmark)
    | false =>
      cases ht : o.target with
      | none => exact .stop (.inr ht)
      | some t =>
        -- the node itself was being built, so it is not its own target
        have hne : t ≠ j := by
          rintro rfl
          rcases hopen with hnone | hk
          · rw [ht] at hnone
            cases hnone
          · exact htarget hmark t ht hk
        obtain ⟨next, hnext⟩ :=
          Assoc.exists_lookup (hstored hmark t (Node.target_mem_mentions ht))
        apply Settles.next ht _ (hold (Assoc.mem_of_lookup hnext))
        rw [Assoc.lookup_insert_of_ne _ hne]
        exact hnext

/-- Storing the node of `k`, after which `rest` is still being built. -/
theorem Sound.store (h : Sound setting roots a) {k : String} {n : Node} {rest : List String}
    {pointers : List (String × String)} (hid : n.id = k) (ho : Origin setting roots n)
    (hactive : ∀ j ∈ a.active, j = k ∨ j ∈ rest) (hrest : ∀ j ∈ rest, j ∈ a.active)
    (hk : Entered setting.doc roots k ∨ ∃ p, k = Pointer.child p "items" ∧ p ∈ rest)
    (hstored : n.isMarker = false → ∀ m ∈ n.mentions, m ∈ Assoc.keys a.nodes)
    (hmarker : n.isMarker = true → ∀ m ∈ n.mentions, m ∈ k :: rest)
    (htarget : n.isMarker = false → ∀ t ∈ n.target, t ∉ a.active)
    (hopen : n.target = none ∨ k ∈ a.active)
    (hfree : TuplesApart setting.doc roots → k ∉ Assoc.keys a.nodes ∧ k ∉ rest)
    (hpointers : ∀ r j, (r, j) ∈ pointers → (r, j) ∈ a.pointers ∨ j = k)
    (hself : ∀ j, j = k ∨ a.pointers.lookup j = some j → pointers.lookup j = some j) :
    Sound setting roots { nodes := Assoc.insert a.nodes k n, pointers, active := rest } := by
  have hkeys : ∀ j, j ∈ Assoc.keys (Assoc.insert a.nodes k n) ↔ j ∈ Assoc.keys a.nodes ∨ j = k :=
    fun j => Assoc.mem_keys_insert
  have hknown : ∀ j, j ∈ Assoc.keys a.nodes ∨ j ∈ a.active →
      j ∈ Assoc.keys (Assoc.insert a.nodes k n) ∨ j ∈ rest := by
    intro j hj
    rcases hj with hj | hj
    · exact .inl ((hkeys j).2 (.inl hj))
    · exact (hactive j hj).imp_left fun hj => (hkeys j).2 (.inr hj)
  constructor
  case id_eq =>
    intro j o hm
    rcases Assoc.mem_insert hm with hm | ⟨rfl, rfl⟩
    · exact h.id_eq hm
    · exact hid
  case nodup => exact Assoc.nodup_keys_insert k n h.nodup
  case origin =>
    intro j o hm
    rcases Assoc.mem_insert hm with hm | ⟨rfl, rfl⟩
    · exact h.origin hm
    · exact ho
  case mentions =>
    intro j o hm m hmem
    rcases Assoc.mem_insert hm with hm | ⟨rfl, rfl⟩
    · rcases h.mentions hm m hmem with hold | ⟨hmark, hact⟩
      · exact .inl ((hkeys m).2 (.inl hold))
      · exact (hactive m hact).imp (fun hmk => (hkeys m).2 (.inr hmk)) fun hr => ⟨hmark, hr⟩
    · cases hmark : o.isMarker with
      | true =>
        exact (List.mem_cons.1 (hmarker hmark m hmem)).imp
          (fun hmk => (hkeys m).2 (.inr hmk)) fun hr => ⟨rfl, hr⟩
      | false => exact .inl ((hkeys m).2 (.inl (hstored hmark m hmem)))
  case pointer_mem =>
    intro r j hm
    rcases hpointers r j hm with hm | rfl
    · exact hknown j (h.pointer_mem hm)
    · exact .inl ((hkeys j).2 (.inr rfl))
  case pointer_self =>
    intro j hj
    apply hself
    by_cases hjk : j = k
    · exact .inl hjk
    · refine .inr (h.pointer_self (hj.imp (fun hj => ?_) (hrest j)))
      exact ((hkeys j).1 hj).resolve_right hjk
  case active_entered => exact fun j hj => h.active_entered j (hrest j hj)
  case key_entered =>
    intro j hj
    rcases (hkeys j).1 hj with hj | rfl
    · refine (h.key_entered j hj).imp_right ?_
      rintro ⟨p, hp, hpa⟩
      exact ⟨p, hp, hknown p hpa⟩
    · exact hk.imp_right fun ⟨p, hp, hpr⟩ => ⟨p, hp, .inr hpr⟩
  case target_free =>
    intro j o hm hmark t ht hin
    rcases Assoc.mem_insert hm with hm | ⟨rfl, rfl⟩
    · exact h.target_free hm hmark t ht (hrest t hin)
    · exact htarget hmark t ht (hrest t hin)
  case settles => exact h.settles_insert hstored htarget hopen
  case active_free =>
    intro hap j hj hjk
    rcases (hkeys j).1 hjk with hjk | rfl
    · exact h.active_free hap j (hrest j hj) hjk
    · exact (hfree hap).2 hj
  case ordered =>
    intro hap
    change Ordered rest (Assoc.insert a.nodes k n)
    -- the place was free, so the node goes to the end
    rw [Assoc.insert_of_not_mem n (hfree hap).1]
    exact ((h.ordered hap).mono fun j hj => List.mem_cons.2 (hactive j hj)).append hstored hmarker

end

/-! ### One arena after another -/

/-- How the arena `b` follows `a`: nothing stored is lost, the same schemas are being built, and none
of the schemas in `held` had its listed items stored meanwhile. -/
structure Grows (setting : Setting) (roots : List SchemaPlace) (held : List String)
    (a b : Arena) : Prop where
  keys : ∀ k ∈ Assoc.keys a.nodes, k ∈ Assoc.keys b.nodes
  active : b.active = a.active
  held : ∀ q ∈ held, Pointer.child q "items" ∈ Assoc.keys b.nodes →
    Pointer.child q "items" ∈ Assoc.keys a.nodes ∨
      Entered setting.doc roots (Pointer.child q "items")

namespace Grows
variable {setting : Setting} {roots : List SchemaPlace} {held : List String} {a b c : Arena}

theorem refl (a : Arena) : Grows setting roots held a a :=
  ⟨fun _ => id, rfl, fun _ _ => .inl⟩

theorem trans (hab : Grows setting roots held a b) (hbc : Grows setting roots held b c) :
    Grows setting roots held a c where
  keys k hk := hbc.keys k (hab.keys k hk)
  active := hbc.active.trans hab.active
  held q hq hc := by
    rcases hbc.held q hq hc with hb | he
    · exact hab.held q hq hb
    · exact .inr he

theorem mono {held' : List String} (h : Grows setting roots held a b)
    (hsub : ∀ q ∈ held', q ∈ held) : Grows setting roots held' a b :=
  ⟨h.keys, h.active, fun q hq => h.held q (hsub q hq)⟩

/-- What holds of all that is being built holds of what is around the innermost of it. -/
theorem of_active {p : String} {rest : List String} (h : Grows setting roots a.active a b)
    (hact : a.active = p :: rest) : Grows setting roots rest a b := by
  apply h.mono
  rw [hact]
  exact fun q hq => List.mem_cons_of_mem _ hq

/-- A place below `q` that is free of listed items stays so while `q` is held. -/
theorem free_of_held {q : String} (h : Grows setting roots held a b) (hq : q ∈ held)
    (hfree : Pointer.child q "items" ∉ Assoc.keys a.nodes ∧
      ¬ Entered setting.doc roots (Pointer.child q "items")) :
    Pointer.child q "items" ∉ Assoc.keys b.nodes ∧
      ¬ Entered setting.doc roots (Pointer.child q "items") := by
  refine ⟨fun hmem => ?_, hfree.2⟩
  rcases h.held q hq hmem with hmem | hent
  · exact hfree.1 hmem
  · exact hfree.2 hent

end Grows
end OpenApi.Resolve
