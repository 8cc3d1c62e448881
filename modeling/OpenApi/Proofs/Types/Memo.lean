import OpenApi.Proofs.Fault
import OpenApi.Proofs.Types.Parts

/-!
Remembering types. A mapper keeps the types that it made, and what it told, from one request to the next. Each
answer is the one that a new mapper would give, and no schema is warned about twice.

Mapping is bounded in depth, and a type that is found in the memory takes no depth at all. This makes no
difference, as the bound is never what ends a mapping that would come to an end: of schemas that are not
settled one step deeper, none is settled any deeper.
-/
namespace OpenApi

open Assoc (keys)
open Outcome (Gives)

/-! ### Mappings that get less far -/

/-- Outcomes that are equal, unless the first was given up. -/
def Approx {α : Type} (a b : Checked α) : Prop := a = .error .exhausted ∨ a = b

theorem Approx.antisymm {α : Type} {a b : Checked α} (h : Approx a b) (h' : Approx b a) : a = b := by
  rcases h with rfl | rfl
  · rcases h' with rfl | rfl <;> rfl
  · rfl

/-- Started in states of `P` and `Q`, the first mapping comes to the outcome of the second or is given up, and
each stays among its states. -/
def Approaches {α : Type} (P Q : MapState → Prop) (x y : Mapping α) : Prop :=
  ∀ s t, P s → Q t → Approx (x.run.run s).1 (y.run.run t).1 ∧ P (x.run.run s).2 ∧ Q (y.run.run t).2

namespace Approaches

variable {α β : Type} {P Q : MapState → Prop} {x y : Mapping α} {f g : α → Mapping β}

theorem bind (hx : Approaches P Q x y) (hf : ∀ a, Approaches P Q (f a) (g a)) :
    Approaches P Q (x >>= f) (y >>= g) := by
  intro s t hs ht
  obtain ⟨happrox, hs', ht'⟩ := hx s t hs ht
  rw [ExceptT.run_bind, StateT.run_bind, ExceptT.run_bind, StateT.run_bind]
  cases hrun : x.run.run s with
  | mk o s' =>
    cases hrun' : y.run.run t with
    | mk o' t' =>
      rw [hrun] at happrox hs'
      rw [hrun'] at happrox ht'
      cases o' with
      | error e =>
        rcases happrox with rfl | rfl
        · exact ⟨.inl rfl, hs', ht'⟩
        · exact ⟨.inr rfl, hs', ht'⟩
      | ok a =>
        have hrest := hf a s' t' hs' ht'
        rcases happrox with rfl | rfl
        · exact ⟨.inl rfl, hs', hrest.2.2⟩
        · exact hrest

theorem pure {a : α} : Approaches P Q (pure a : Mapping α) (pure a) := fun _ _ hs ht => ⟨.inr rfl, hs, ht⟩

theorem throw {e : Fault} : Approaches P Q (throw e : Mapping α) (throw e) :=
  fun _ _ hs ht => ⟨.inr rfl, hs, ht⟩

theorem lift {c : Checked α} : Approaches P Q (liftM c : Mapping α) (liftM c) :=
  fun _ _ hs ht => ⟨.inr rfl, hs, ht⟩

theorem mapM {xs : List α} (h : ∀ x ∈ xs, Approaches P Q (f x) (g x)) :
    Approaches P Q (xs.mapM f) (xs.mapM g) := by
  induction xs with
  | nil =>
    rw [List.mapM_nil, List.mapM_nil]
    exact .pure
  | cons x xs ih =>
    obtain ⟨hx, hxs⟩ := List.forall_mem_cons.1 h
    rw [List.mapM_cons, List.mapM_cons]
    exact hx.bind fun b => (ih hxs).bind fun bs => .pure

end Approaches

namespace Mapper

variable {m : Mapper} {n : Node} {id : String} {P Q : MapState → Prop} {use use' : Use}
  {fuel fuel' : Nat} {s : MapState}

/-! ### Schemas that use no others -/

/-- A mapping that makes no types and tells at most one thing, and nothing if it fails. -/
def TellsOnce {α : Type} (x : Mapping α) : Prop :=
  ∃ outcome, ∃ notice : Option Notice,
    (∀ s, x.run.run s = (outcome, { s with notices := s.notices ++ notice.toList })) ∧
      ∀ e, outcome = .error e → notice = none

namespace TellsOnce

variable {α β : Type} {f : α → Mapping β}

theorem pure (a : α) : TellsOnce (pure a : Mapping α) := by
  refine ⟨.ok a, none, fun s => ?_, fun _ he => nomatch he⟩
  rw [Option.toList_none, List.append_nil]
  rfl

theorem throw (e : Fault) : TellsOnce (throw e : Mapping α) := by
  refine ⟨.error e, none, fun s => ?_, fun _ _ => rfl⟩
  rw [Option.toList_none, List.append_nil]
  rfl

theorem lift_bind {c : Checked α} (h : ∀ a, TellsOnce (f a)) : TellsOnce (liftM c >>= f) := by
  cases c with
  | error e => exact throw e
  | ok a => exact h a

theorem warn {message : String} {g : String → α} : TellsOnce (do return g (← Mapper.warn n message)) :=
  ⟨.ok (g (n.id ++ ": " ++ message)), some (.mapping (n.id ++ ": " ++ message)), fun _ => rfl,
    fun _ he => nomatch he⟩

end TellsOnce

theorem ofFormat_tells {type : String} {known? : String → Option Primitive} {fallback : Primitive} :
    TellsOnce (ofFormat n type known? fallback) := by
  unfold ofFormat
  split
  · exact .pure _
  · split
    · exact .pure _
    · exact .lift_bind fun _ => .warn
  · exact .throw _

theorem primitive_tells (n : Node) : TellsOnce (primitive n) := by
  unfold primitive
  split
  · exact .pure _
  · exact .pure _
  · exact .pure _
  · exact .pure _
  · exact ofFormat_tells
  · exact ofFormat_tells
  · exact .lift_bind fun _ => .warn

/-- May a schema be warned about? Such a schema uses no others. -/
def isBasic (n : Node) : Prop := n.kind = .enum ∨ n.kind = .primitive

instance (n : Node) : Decidable (isBasic n) := inferInstanceAs (Decidable (_ ∨ _))

theorem exists_node_eq (hn : isBasic n) (use : Use) :
    ∃ g : Primitive × List String → Descriptor, m.node use n = do return g (← primitive n) := by
  unfold node
  rcases hn with hkind | hkind
  · rw [hkind]
    exact ⟨_, rfl⟩
  · rw [hkind]
    exact ⟨_, rfl⟩

/-- The warning about a schema, if its type or format is not known. -/
def warning? (m : Mapper) (id : String) : Option Notice :=
  match m.table.node id with
  | .ok n => if isBasic n then ((primitive n).run.run {}).2.notices.head? else none
  | .error _ => none

/-! ### Schemas that use others -/

section
variable (huse : ∀ id, Approaches P Q (use id) (use' id))
include huse

theorem field_approaches {p : Property} : Approaches P Q (m.field use p) (m.field use' p) :=
  Approaches.lift.bind fun _ => Approaches.lift.bind fun _ => (huse p.node).bind fun _ =>
    Approaches.lift.bind fun _ => .pure

theorem additional_approaches {a : Additional String} :
    Approaches P Q (additional use a) (additional use' a) := by
  cases a with
  | unspecified => exact .pure
  | flag b => exact .pure
  | schema id => exact (huse id).bind fun _ => .pure

theorem target_approaches : Approaches P Q (m.target use n) (m.target use' n) := by
  unfold target
  cases n.target with
  | none => exact .throw
  | some target =>
    dsimp only
    cases m.names.lookup target with
    | some name => exact .pure
    | none =>
      dsimp only
      split
      · exact Approaches.throw.bind fun _ => huse target
      · exact huse target

theorem unionMembers_approaches {ids : List String} :
    Approaches P Q (m.unionMembers use ids) (m.unionMembers use' ids) := by
  induction ids with
  | nil => exact .pure
  | cons id rest ih =>
    refine Approaches.lift.bind fun isNull => ?_
    cases isNull with
    | true => exact ih.bind fun _ => .pure
    | false => exact (huse id).bind fun _ => ih.bind fun _ => .pure

theorem useWith_approaches (id : String) : Approaches P Q (m.useWith use id) (m.useWith use' id) := by
  unfold useWith
  split
  · exact .pure
  · exact huse id

end

/-- A schema gets as far as the schemas that it uses. -/
theorem node_approaches (m : Mapper) (n : Node) {structural structural' : Use}
    (hP : ∀ s notices, P s → P { s with notices }) (hQ : ∀ s notices, Q s → Q { s with notices })
    (h : ∀ id, Approaches P Q (structural id) (structural' id)) :
    Approaches P Q (m.node (m.useWith structural) n) (m.node (m.useWith structural') n) := by
  have hprimitive : Approaches P Q (primitive n) (primitive n) := by
    obtain ⟨outcome, notice, hruns, -⟩ := primitive_tells n
    intro s t hs ht
    rw [hruns, hruns]
    exact ⟨.inr rfl, hP s _ hs, hQ t _ ht⟩
  have huse : ∀ id, Approaches P Q (m.useWith structural id) (m.useWith structural' id) :=
    useWith_approaches h
  unfold node
  cases n.kind with
  | reference => exact (target_approaches huse).bind fun _ => .pure
  | recursive => exact (target_approaches huse).bind fun _ => .pure
  | union => exact (unionMembers_approaches huse).bind fun _ => .pure
  | object =>
    exact (Approaches.mapM fun _ _ => field_approaches huse).bind fun _ =>
      (additional_approaches huse).bind fun _ => .pure
  | array =>
    dsimp only
    cases n.items with
    | none => exact Approaches.pure.bind fun _ => .pure
    | some id =>
      dsimp only
      split
      · exact Approaches.pure.bind fun _ => .pure
      · exact (huse id).bind fun _ => .pure
  | enum => exact hprimitive.bind fun _ => .pure
  | intersection => exact (Approaches.mapM fun id _ => huse id).bind fun _ => .pure
  | primitive => exact hprimitive.bind fun _ => .pure

/-! ### Mapping without a memory -/

/-- The type of an id, made without a memory. -/
def mapAfresh (m : Mapper) : Nat → Use
  | 0, _ => throw .exhausted
  | fuel + 1, id => do m.node (m.useWith (m.mapAfresh fuel)) (← m.table.node id)

/-- The outcome of mapping without a memory. -/
def afresh (m : Mapper) (fuel : Nat) (id : String) : Checked Descriptor :=
  ((m.mapAfresh fuel id).run.run {}).1

/-- Mapping that may go deeper gets as far. -/
theorem mapAfresh_approaches (hle : fuel ≤ fuel') (id : String) :
    Approaches (fun _ => True) (fun _ => True) (m.mapAfresh fuel id) (m.mapAfresh fuel' id) := by
  induction fuel generalizing fuel' id with
  | zero => exact fun _ _ _ _ => ⟨.inl rfl, trivial, trivial⟩
  | succ fuel ih =>
    obtain ⟨fuel', rfl⟩ : ∃ k, fuel' = k + 1 := ⟨fuel' - 1, by omega⟩
    exact Approaches.lift.bind fun n =>
      node_approaches m n (fun _ _ h => h) (fun _ _ h => h) fun j => ih (by omega) j

theorem afresh_mono (hle : fuel ≤ fuel') (id : String) : Approx (m.afresh fuel id) (m.afresh fuel' id) :=
  (mapAfresh_approaches hle id {} {} trivial trivial).1

/-- The outcome does not depend on what was done before. -/
theorem afresh_eq (fuel : Nat) (id : String) (s : MapState) :
    ((m.mapAfresh fuel id).run.run s).1 = m.afresh fuel id := by
  have hself := mapAfresh_approaches (m := m) (Nat.le_refl fuel) id
  exact (hself s {} trivial trivial).1.antisymm (hself {} s trivial trivial).1

/-! ### Going deeper settles no more -/

/-- One step deeper, every mapping has the same outcome. -/
def Steady (m : Mapper) (fuel : Nat) : Prop := ∀ id, m.afresh fuel id = m.afresh (fuel + 1) id

theorem Steady.succ (h : m.Steady fuel) : m.Steady (fuel + 1) := by
  intro id
  have hback : ∀ j, Approaches (fun _ => True) (fun _ => True) (m.mapAfresh (fuel + 1) j)
      (m.mapAfresh fuel j) := by
    intro j s t _ _
    rw [afresh_eq, afresh_eq, h j]
    exact ⟨.inr rfl, trivial, trivial⟩
  have hnode : Approaches (fun _ => True) (fun _ => True) (m.mapAfresh (fuel + 2) id)
      (m.mapAfresh (fuel + 1) id) :=
    Approaches.lift.bind fun n => node_approaches m n (fun _ _ h => h) (fun _ _ h => h) hback
  exact (afresh_mono (Nat.le_succ _) id).antisymm (hnode {} {} trivial trivial).1

theorem Steady.eq (h : m.Steady fuel) (hle : fuel ≤ fuel') (id : String) :
    m.afresh fuel' id = m.afresh fuel id := by
  have hall : ∀ k, m.Steady (fuel + k) := by
    intro k
    induction k with
    | zero => exact h
    | succ k ih => exact ih.succ
  induction fuel', hle using Nat.le_induction with
  | base => rfl
  | succ k hk ih =>
    obtain ⟨k, rfl⟩ := Nat.exists_eq_add_of_le hk
    exact (hall k id).symm.trans ih

/-- The ids of the schemas whose mapping is not given up. -/
def settled (m : Mapper) (fuel : Nat) : List String :=
  (keys m.table.nodes).filter fun id => !gaveUp (m.afresh fuel id)

theorem settled_sublist (m : Mapper) (fuel : Nat) : (m.settled fuel).Sublist (m.settled (fuel + 1)) := by
  refine List.monotone_filter_right _ fun id hid => ?_
  rw [Bool.not_eq_true', Bool.eq_false_iff, ne_eq, gaveUp_iff] at hid ⊢
  rcases afresh_mono (Nat.le_succ fuel) id with hopen | heq
  · exact absurd hopen hid
  · rwa [← heq]

theorem afresh_of_error {e : Fault} (h : m.table.node id = .error e) (fuel : Nat) :
    m.afresh (fuel + 1) id = .error e := by
  rw [afresh, mapAfresh, h]
  rfl

theorem steady_of_settled (h : (m.settled (fuel + 2)).length ≤ (m.settled (fuel + 1)).length) :
    m.Steady (fuel + 1) := by
  intro id
  rcases afresh_mono (Nat.le_succ (fuel + 1)) id with hopen | heq
  · cases hn : m.table.node id with
    | error e => rw [afresh_of_error hn, afresh_of_error hn]
    | ok n =>
      -- a schema that is settled only now would be one more
      have hall := (m.settled_sublist (fuel + 1)).eq_of_length_le h
      have hmem : id ∉ m.settled (fuel + 2) := by
        rw [← hall, settled, List.mem_filter, hopen]
        exact fun h => by cases h.2
      rw [settled, List.mem_filter, not_and, Bool.not_eq_true, Bool.not_eq_false', gaveUp_iff] at hmem
      rw [hopen, hmem (Assoc.mem_keys_of_mem (Assoc.mem_of_lookup (SchemaTable.node_ok_iff.1 hn)))]
  · exact heq

/-- Each step that settles anything settles one schema more, and there are only so many. -/
theorem exists_steady (m : Mapper) : ∃ k ≤ m.table.nodes.length, m.Steady (k + 1) := by
  by_contra hnone
  have hgrows : ∀ k ≤ m.table.nodes.length + 1, k ≤ (m.settled (k + 1)).length := by
    intro k
    induction k with
    | zero => exact fun _ => Nat.zero_le _
    | succ k ih =>
      intro hk
      have hlt : (m.settled (k + 1)).length < (m.settled (k + 1 + 1)).length := by
        by_contra hle
        exact hnone ⟨k, by omega, steady_of_settled (Nat.le_of_not_lt hle)⟩
      have hk := ih (by omega)
      omega
  have hle : (m.settled (m.table.nodes.length + 1 + 1)).length ≤ (keys m.table.nodes).length :=
    List.length_filter_le _ _
  have hlength : (keys m.table.nodes).length = m.table.nodes.length := List.length_map _
  have hall := hgrows (m.table.nodes.length + 1) (Nat.le_refl _)
  omega

/-- What a mapper that remembers nothing makes of an id. -/
def plain (m : Mapper) (id : String) : Checked Descriptor := m.afresh (m.table.nodes.length + 1) id

theorem afresh_eq_plain (h : m.table.nodes.length < fuel) (id : String) :
    m.afresh fuel id = m.plain id := by
  obtain ⟨k, hk, hsteady⟩ := m.exists_steady
  exact (hsteady.eq (by omega) id).trans (hsteady.eq (by omega) id).symm

theorem afresh_approx_plain (fuel : Nat) (id : String) : Approx (m.afresh fuel id) (m.plain id) := by
  have hplain : m.afresh (max fuel (m.table.nodes.length + 1)) id = m.plain id :=
    afresh_eq_plain (by omega) id
  exact hplain ▸ afresh_mono (Nat.le_max_left _ _) id

/-! ### The memory -/

/-- What is remembered of an id is what would be made of it. -/
abbrev Sound (m : Mapper) : MapState → Prop := MemoHolds fun id d => m.plain id = .ok d

theorem mapAfresh_run (h : m.table.node id = .ok n) (fuel : Nat) (s : MapState) :
    ((m.node (m.useWith (m.mapAfresh fuel)) n).run.run s).1 = m.afresh (fuel + 1) id := by
  rw [← afresh_eq _ _ s, mapAfresh, h]
  rfl

theorem mapWithin_run (fuel : Nat) (id : String) (s : MapState) :
    (m.mapWithin (fuel + 1) id).run.run s =
      match s.memo.lookup id with
      | some d => (.ok d, s)
      | none =>
        match m.table.node id with
        | .error e => (.error e, s)
        | .ok n =>
          match (m.node (m.useWith (m.mapWithin fuel)) n).run.run s with
          | (.error e, t) => (.error e, t)
          | (.ok d, t) => (.ok d, { t with memo := t.memo ++ [(id, d)] }) := by
  have hget : (get : Mapping MapState).run.run s = (.ok s, s) := rfl
  rw [mapWithin, Outcome.ran_bind_of_ok hget]
  cases s.memo.lookup id with
  | some d => rfl
  | none =>
    cases m.table.node id with
    | error e => rfl
    | ok n =>
      dsimp only
      rw [Outcome.ran_bind_of_ok (x := liftM (Except.ok n)) rfl, ExceptT.run_bind, StateT.run_bind]
      cases (m.node (m.useWith (m.mapWithin fuel)) n).run.run s with
      | mk o t => cases o <;> rfl

/-- With a memory, a mapping gets as far as without, and no farther than any mapping does. What it finds in
the memory is what would be made, and what it makes is remembered rightly. -/
theorem mapWithin_sound (fuel : Nat) (hs : m.Sound s) (id : String) :
    Approx (m.afresh fuel id) ((m.mapWithin fuel id).run.run s).1 ∧
      Approx ((m.mapWithin fuel id).run.run s).1 (m.plain id) ∧
        m.Sound ((m.mapWithin fuel id).run.run s).2 := by
  induction fuel generalizing s id with
  | zero => exact ⟨.inl rfl, .inl rfl, hs⟩
  | succ fuel ih =>
    have hbelow : ∀ j, Approaches (fun _ => True) m.Sound (m.mapAfresh fuel j) (m.mapWithin fuel j) := by
      intro j s t _ ht
      rw [afresh_eq]
      exact ⟨(ih ht j).1, trivial, (ih ht j).2.2⟩
    have habove : ∀ j, Approaches m.Sound (fun _ => True) (m.mapWithin fuel j)
        (m.mapAfresh (m.table.nodes.length + 1) j) := by
      intro j s t hs _
      rw [afresh_eq]
      exact ⟨(ih hs j).2.1, (ih hs j).2.2, trivial⟩
    rw [mapWithin_run]
    cases hlookup : s.memo.lookup id with
    | some d =>
      have hplain : m.plain id = .ok d := hs _ (Assoc.mem_of_lookup hlookup)
      have hfar : Approx (m.afresh (fuel + 1) id) (m.plain id) := afresh_approx_plain _ id
      rw [hplain] at hfar
      exact ⟨hfar, .inr hplain.symm, hs⟩
    | none =>
      cases hn : m.table.node id with
      | error e => exact ⟨.inr (afresh_of_error hn _), .inr (afresh_of_error hn _).symm, hs⟩
      | ok n =>
        obtain ⟨hfar, -, -⟩ := node_approaches m n (fun _ _ h => h) (fun _ _ h => h) hbelow s s trivial hs
        obtain ⟨hnear, hkeeps, -⟩ :=
          node_approaches m n (fun _ _ h => h) (fun _ _ h => h) habove s s hs trivial
        rw [mapAfresh_run hn] at hfar hnear
        rw [afresh_eq_plain (by omega)] at hnear
        dsimp only
        cases hnode : (m.node (m.useWith (m.mapWithin fuel)) n).run.run s with
        | mk o t =>
          rw [hnode] at hfar hnear hkeeps
          cases o with
          | error e => exact ⟨hfar, hnear, hkeeps⟩
          | ok d =>
            have hplain : m.plain id = .ok d := (hnear.resolve_left nofun).symm
            exact ⟨hfar, hnear, List.forall_mem_append.2 ⟨hkeeps, List.forall_mem_singleton.2 hplain⟩⟩

/-- What a mapper makes of an id, whatever it remembers. -/
theorem mapType_eq (hs : m.Sound s) (id : String) : ((m.mapType id).run.run s).1 = m.plain id :=
  (mapWithin_sound _ hs id).2.1.antisymm (mapWithin_sound _ hs id).1

/-! ### Warnings -/

/-- The warnings about the schemas that were mapped were told, and no others. If there is a warning about a
schema, it was mapped once. -/
structure Told (m : Mapper) (st : MapState) : Prop where
  notices : st.notices = (keys st.memo).filterMap m.warning?
  nodup : ((keys st.memo).filter fun id => (m.warning? id).isSome).Nodup

theorem Told.remember {st : MapState} (h : m.Told st) (d : Descriptor)
    (hid : (m.warning? id).isSome = true → id ∉ keys st.memo) :
    m.Told { memo := st.memo ++ [(id, d)], notices := st.notices ++ (m.warning? id).toList } where
  notices := by
    rw [h.notices, Assoc.keys_append, List.filterMap_append]
    cases hw : m.warning? id <;> simp [keys, hw]
  nodup := by
    rw [Assoc.keys_append, List.filter_append]
    cases hw : m.warning? id with
    | none => simpa [keys, hw] using h.nodup
    | some notice =>
      have hnew : id ∉ keys st.memo := hid (by rw [hw]; rfl)
      have hone : (keys [(id, d)]).filter (fun id => (m.warning? id).isSome) = [id] := by simp [keys, hw]
      rw [hone]
      refine List.nodup_append.2 ⟨h.nodup, List.nodup_singleton id, fun a ha b hb heq => ?_⟩
      rw [heq, List.mem_singleton.1 hb] at ha
      exact hnew (List.mem_of_mem_filter ha)

/-- What one schema adds to what was told. -/
theorem node_told {structural : Use} (huse : ∀ j, Gives m.Told (structural j) fun _ => True)
    (hn : m.table.node id = .ok n) {t : MapState} {outcome : Checked Descriptor} (hs : m.Told s)
    (hid : id ∉ keys s.memo) (hrun : (m.node (m.useWith structural) n).run.run s = (outcome, t)) :
    (∀ d, outcome = .ok d → m.Told { t with memo := t.memo ++ [(id, d)] }) ∧
      ∀ e, outcome = .error e → m.Told t := by
  by_cases hbasic : isBasic n
  · obtain ⟨o, notice, hruns, hfails⟩ := primitive_tells n
    have hwarning : m.warning? id = notice := by
      rw [warning?, hn]
      dsimp only
      rw [if_pos hbasic, hruns]
      cases notice <;> rfl
    obtain ⟨g, hg⟩ := exists_node_eq (m := m) hbasic (m.useWith structural)
    rw [hg, ExceptT.run_bind, StateT.run_bind, hruns] at hrun
    cases o with
    | ok r =>
      cases hrun
      refine ⟨fun d _ => ?_, fun _ he => nomatch he⟩
      rw [← hwarning]
      exact hs.remember d fun _ => hid
    | error e =>
      rw [hfails e rfl, Option.toList_none, List.append_nil] at hrun
      cases hrun
      exact ⟨fun _ hd => (nomatch hd), fun _ _ => hs⟩
  · -- the schemas that it uses may be warned about, but it is not
    have hnone : m.warning? id = none := by
      rw [warning?, hn]
      exact if_neg hbasic
    have hnode : Gives m.Told (m.node (m.useWith structural) n) fun _ => True :=
      node_gives (fun _ _ => trivial) (fun _ _ => trivial) (fun h => absurd h hbasic)
        (fun _ _ _ => useWith_keeps huse) fun _ _ _ _ => trivial
    have ht := hnode.keeps hs
    rw [hrun] at ht
    refine ⟨fun d _ => ?_, fun _ _ => ht⟩
    have hadded : m.Told { memo := t.memo ++ [(id, d)], notices := t.notices ++ (m.warning? id).toList } :=
      ht.remember d (by rw [hnone]; nofun)
    rwa [hnone, Option.toList_none, List.append_nil] at hadded

theorem mapWithin_told (fuel : Nat) (id : String) : Gives m.Told (m.mapWithin fuel id) fun _ => True := by
  induction fuel generalizing id with
  | zero => exact .throw
  | succ fuel ih =>
    refine .of_keeps fun s hs => ?_
    rw [mapWithin_run]
    cases hlookup : s.memo.lookup id with
    | some d => exact hs
    | none =>
      cases hn : m.table.node id with
      | error e => exact hs
      | ok n =>
        dsimp only
        cases hrun : (m.node (m.useWith (m.mapWithin fuel)) n).run.run s with
        | mk outcome t =>
          obtain ⟨hok, herror⟩ := node_told ih hn hs (Assoc.lookup_eq_none_iff.1 hlookup) hrun
          cases outcome with
          | ok d => exact hok d rfl
          | error e => exact herror e rfl

/-! ### Requests -/

/-- What a mapper can be asked for: the type of an id, or of a place that uses it, the type of a name, or
the types of all names. -/
inductive Request where
  | type (id : String)
  | use (id : String)
  | named (name : Scalar)
  | allNamed

inductive Answer where
  | one (d : Descriptor)
  | all (types : NamedTypes)

def ask (m : Mapper) : Request → Mapping Answer
  | .type id => return .one (← m.mapType id)
  | .use id => return .one (← m.mapUse id)
  | .named name => return .one (← m.namedType name)
  | .allNamed => return .all (← m.namedTypes)

/-- Answers requests one after the other. One that fails does not end the others. -/
def serve (m : Mapper) (st : MapState) : List Request → List (Checked Answer) × MapState
  | [] => ([], st)
  | request :: rest =>
    let asked := (m.ask request).run.run st
    let served := m.serve asked.2 rest
    (asked.1 :: served.1, served.2)

/-- The states that requests lead to. -/
structure Consistent (m : Mapper) (st : MapState) : Prop where
  sound : m.Sound st
  told : m.Told st

theorem consistent_start (m : Mapper) : m.Consistent {} := ⟨List.forall_mem_nil _, rfl, .nil⟩

theorem mapType_self (id : String) :
    Approaches m.Consistent m.Consistent (m.mapType id) (m.mapType id) := by
  have hkeeps : ∀ {s}, m.Consistent s → m.Consistent ((m.mapType id).run.run s).2 := fun hs =>
    ⟨(mapWithin_sound _ hs.sound id).2.2, (mapWithin_told _ id).keeps hs.told⟩
  intro s t hs ht
  exact ⟨.inr ((mapType_eq hs.sound id).trans (mapType_eq ht.sound id).symm), hkeeps hs, hkeeps ht⟩

theorem ask_self (request : Request) :
    Approaches m.Consistent m.Consistent (m.ask request) (m.ask request) := by
  cases request with
  | type id => exact (mapType_self id).bind fun _ => .pure
  | use id => exact (useWith_approaches mapType_self id).bind fun _ => .pure
  | named name =>
    have hnamed : Approaches m.Consistent m.Consistent (m.namedType name) (m.namedType name) := by
      unfold namedType
      split
      · exact mapType_self _
      · exact .throw
    exact hnamed.bind fun _ => .pure
  | allNamed =>
    have hall : Approaches m.Consistent m.Consistent m.namedTypes m.namedTypes :=
      (Approaches.mapM fun e _ => (mapType_self e.1).bind fun _ => .pure).bind fun _ => .pure
    exact hall.bind fun _ => .pure

/-- No answer depends on the requests before. -/
theorem serve_consistent {st : MapState} (hst : m.Consistent st) (requests : List Request) :
    (m.serve st requests).1 = requests.map (fun request => ((m.ask request).run.run {}).1) ∧
      m.Consistent (m.serve st requests).2 := by
  induction requests generalizing st with
  | nil => exact ⟨rfl, hst⟩
  | cons request rest ih =>
    obtain ⟨hfrom, hnext, -⟩ := ask_self request st {} hst m.consistent_start
    have hto := (ask_self request {} st m.consistent_start hst).1
    obtain ⟨hanswers, hlast⟩ := ih hnext
    exact ⟨List.cons_eq_cons.2 ⟨hfrom.antisymm hto, hanswers⟩, hlast⟩

/-- What a mapper remembers makes no difference to what it is asked for, in whatever order. Each request is
answered, or fails, as if it were the first; and each schema that was mapped and that there is a warning about
was warned about once. -/
theorem serve_transparent (m : Mapper) (requests : List Request) :
    (m.serve {} requests).1 = requests.map (fun request => ((m.ask request).run.run {}).1) ∧
      m.Told (m.serve {} requests).2 :=
  (serve_consistent m.consistent_start requests).imp_right Consistent.told

end Mapper
end OpenApi
