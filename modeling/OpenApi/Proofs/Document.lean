import Mathlib.Data.List.Perm.Subperm
import OpenApi.Proofs.Fault
import OpenApi.Proofs.Tree

/-!
What navigation through a document finds. Pointers lead to values that stand in the document. A chain
of references names another place with each step, and the document names no more places than it holds
values, so following the chain ends.
-/
namespace OpenApi

open Outcome (Faults bind_ok bind_pure_ok pure_ok)

variable {doc v : Value}

/-- Values that stand in a document, and values with nothing inside them. -/
def Held (doc v : Value) : Prop := v ∈ doc.subvalues ∨ v.size = 1

namespace Held

variable {items : List Value} {w : Value}

theorem item (h : Held doc (.list items)) {x : Value} (hx : x ∈ items) : x ∈ doc.subvalues := by
  have hmem := Value.mem_subvalues_of_item hx
  rcases h with h | h
  · exact Value.subvalues_trans h hmem
  · have hlt := Value.size_lt_of_item hx
    have hpos := x.size_pos
    omega

theorem entry {entries : Entries} (h : Held doc (.map entries)) {e : Scalar × Value}
    (he : e ∈ entries) : e.2 ∈ doc.subvalues := by
  have hmem := Value.mem_subvalues_of_entry he
  rcases h with h | h
  · exact Value.subvalues_trans h hmem
  · have hlt := Value.size_lt_of_entry he
    have hpos := e.2.size_pos
    omega

theorem size_le (h : Held doc v) : v.size ≤ doc.size := by
  rcases h with h | h
  · exact Value.size_le_of_mem h
  · have hpos := doc.size_pos
    omega

theorem orEmpty (h : Held doc v) : Held doc v.orEmpty := by
  unfold Value.orEmpty
  split
  · exact h
  · exact .inr rfl

theorem entries (h : Held doc v) {entries : Entries} (hv : v.entries = .ok entries)
    {e : Scalar × Value} (he : e ∈ entries) : Held doc e.2 := by
  rw [Value.entries_ok hv] at h
  exact .inl (h.entry he)

theorem elements (h : Held doc v) (hv : v.elements = .ok items) {x : Value} (hx : x ∈ items) :
    Held doc x := by
  unfold Value.elements at hv
  split at hv
  · obtain rfl := Except.ok.inj hv
    exact .inl (h.item hx)
  · obtain rfl := Except.ok.inj hv
    obtain ⟨e, -, rfl⟩ := List.mem_map.1 hx
    exact .inr rfl
  · obtain rfl := Except.ok.inj hv
    obtain ⟨c, -, rfl⟩ := List.mem_map.1 hx
    exact .inr rfl
  · cases hv

theorem getD (h : Held doc v) {key : String} {default : Value} (hdefault : default.size = 1)
    (hv : v.getD key default = .ok w) : Held doc w := by
  obtain ⟨entries, hentries, rfl⟩ := bind_pure_ok.1 hv
  cases hfound : entries.get? key with
  | none => exact .inr hdefault
  | some x =>
    obtain ⟨k, hk, -⟩ := Entries.mem_of_find? hfound
    exact h.entries hentries hk

theorem get (h : Held doc v) {key : String} (hv : v.get key = .ok w) : Held doc w :=
  h.getD rfl hv

theorem nth (h : Held doc (.list items)) {i : Int} (hv : Value.nth items i = .ok w) : Held doc w := by
  unfold Value.nth at hv
  generalize (if i < 0 then i + items.length else i) = j at hv
  dsimp only at hv
  split at hv
  · cases hv
  · split at hv
    · next hx =>
      obtain rfl := Except.ok.inj hv
      exact .inl (h.item (List.mem_of_getElem? hx))
    · cases hv

theorem find (h : Held doc v) {key : Value} (hv : v.item key = .ok w) : Held doc w := by
  unfold Value.item at hv
  split at hv
  · split at hv
    · next hfound =>
      obtain rfl := Except.ok.inj hv
      obtain ⟨k, hk, -⟩ := Entries.mem_of_find? hfound
      exact .inl (h.entry hk)
    · cases hv
  · exact h.nth hv
  · exact h.nth hv
  · cases hv

end Held

namespace Document

variable {pointer : String}

theorem mem_of_step? {node next : Value} {token : String} (h : step? node token = .ok (some next)) :
    next ∈ node.subvalues := by
  unfold step? at h
  split at h
  · split at h
    · next hfound =>
      obtain rfl := Option.some.inj (Except.ok.inj h)
      obtain ⟨k, hk, -⟩ := Entries.mem_of_find? hfound
      exact Value.mem_subvalues_of_entry hk
    · split at h
      · obtain ⟨n, -, h⟩ := bind_ok.1 h
        obtain ⟨k, hk, -⟩ := Entries.mem_of_find? (pure_ok.1 h)
        exact Value.mem_subvalues_of_entry hk
      · cases h
  · split at h
    · obtain ⟨n, -, h⟩ := bind_ok.1 h
      exact Value.mem_subvalues_of_item (List.mem_of_getElem? (pure_ok.1 h))
    · cases h
  · cases h

theorem mem_of_walk {node v : Value} {tokens : List String} (h : walk pointer node tokens = .ok v) :
    v ∈ node.subvalues := by
  induction tokens generalizing node with
  | nil =>
    obtain rfl := Except.ok.inj h
    exact node.mem_subvalues_self
  | cons token rest ih =>
    rw [walk] at h
    obtain ⟨next, hstep, h⟩ := bind_ok.1 h
    cases next with
    | none => cases h
    | some next => exact Value.subvalues_trans (mem_of_step? hstep) (ih h)

/-- What a pointer leads to stands in the document. -/
theorem mem_of_resolve (h : resolve doc pointer = .ok v) : v ∈ doc.subvalues := by
  obtain ⟨tokens, -, h⟩ := bind_ok.1 h
  exact mem_of_walk h

theorem held_paths {paths : Value} (h : Document.paths doc = .ok paths) : Held doc paths := by
  obtain ⟨found, hfound, rfl⟩ := bind_pure_ok.1 h
  have hdoc : Held doc doc := .inl doc.mem_subvalues_self
  exact (hdoc.get hfound).orEmpty

theorem held_schemas {schemas : Value} (h : Document.schemas doc = .ok schemas) :
    Held doc schemas := by
  have hdoc : Held doc doc := .inl doc.mem_subvalues_self
  obtain ⟨components, hcomponents, h⟩ := bind_ok.1 h
  obtain ⟨found, hfound, h⟩ := bind_ok.1 h
  have hheld := (hdoc.getD rfl hcomponents).get hfound
  dsimp only at h
  split at h
  · obtain ⟨definitions, hdefinitions, rfl⟩ := bind_pure_ok.1 h
    exact (hdoc.getD rfl hdefinitions).orEmpty
  · obtain rfl := pure_ok.1 h
    exact hheld.orEmpty

theorem inlineSchema?_eq_some {param schema : Value} (h : inlineSchema? param = .ok (some schema)) :
    ∃ entries, param.entries = .ok entries ∧ schema = .map (entries.filter fun e =>
      inlineKeywords.any fun key => e.1.same (.str key)) := by
  obtain ⟨held, -, h⟩ := bind_ok.1 h
  split at h
  · cases h
  · obtain ⟨held, -, h⟩ := bind_ok.1 h
    split at h
    · cases h
    · obtain ⟨held, -, h⟩ := bind_ok.1 h
      split at h
      · cases h
      · obtain ⟨entries, hentries, h⟩ := bind_ok.1 h
        exact ⟨entries, hentries, (Option.some.inj (pure_ok.1 h)).symm⟩

/-! ### Chains of references -/

/-- The place that a value names if it is a reference. -/
def target? (v : Value) : Option String :=
  match ref? v with
  | some (.str ref) => (Pointer.normalize ref).toOption
  | _ => none

/-- The places that the references of a document name. -/
def targets (doc : Value) : List String := doc.subvalues.filterMap target?

theorem length_targets_le (doc : Value) : (targets doc).length ≤ doc.size := by
  rw [← doc.length_subvalues]
  exact List.length_filterMap_le ..

theorem target?_eq_some_iff {target : String} : target? v = some target ↔
    ∃ ref, ref? v = some (.str ref) ∧ Pointer.normalize ref = .ok target := by
  unfold target?
  split
  · next ref href =>
    rw [href]
    cases hnormalize : Pointer.normalize ref with
    | error e => simp [Except.toOption, hnormalize]
    | ok p => simp [Except.toOption, hnormalize]
  · next hother =>
    constructor
    · rintro ⟨⟩
    · rintro ⟨ref, href, -⟩
      exact (hother ref href).elim

theorem mem_targets (hv : Held doc v) {ref target : String} (href : ref? v = some (.str ref))
    (htarget : Pointer.normalize ref = .ok target) : target ∈ targets doc := by
  have hmem : v ∈ doc.subvalues := by
    refine hv.resolve_right fun hsize => ?_
    -- a reference is an entry, so there is something inside
    unfold ref? at href
    split at href
    · obtain ⟨k, hk, -⟩ := Entries.mem_of_find? href
      have hlt := Value.size_lt_of_entry hk
      have hpos := (Value.str ref).size_pos
      dsimp only at hlt
      omega
    · cases href
  exact List.mem_filterMap.2 ⟨v, hmem, target?_eq_some_iff.2 ⟨ref, href, htarget⟩⟩

/-- References that are followed one after the other: the pointers that they name, and the value that the
last of them leads to, with its pointer. -/
inductive Forwards (doc : Value) : Value → String → List String → Value → String → Prop
  | here (v : Value) (pointer : String) : Forwards doc v pointer [] v pointer
  | next {v w x : Value} {pointer target q : String} {trail : List String}
      (htarget : target? v = some target) (hw : resolve doc target = .ok w)
      (h : Forwards doc w target trail x q) : Forwards doc v pointer (target :: trail) x q

/-- What was followed last leads to the value at the end. -/
theorem Forwards.resolve_end {w : Value} {q : String} {trail : List String}
    (h : Forwards doc v pointer trail w q) :
    (w = v ∧ q = pointer) ∨ (∃ ref, Pointer.normalize ref = .ok q) ∧ resolve doc q = .ok w := by
  induction h with
  | here v pointer => exact .inl ⟨rfl, rfl⟩
  | next htarget hw _ ih =>
    rcases ih with ⟨rfl, rfl⟩ | h
    · obtain ⟨ref, -, hnormalize⟩ := target?_eq_some_iff.1 htarget
      exact .inr ⟨⟨ref, hnormalize⟩, hw⟩
    · exact .inr h

/-- What one step of following a chain does: it ends there, goes on at the place that is named unless it has
been there, or fails for a reference that names no place. -/
theorem follow_cases (doc v : Value) (pointer : String) (fuel : Nat) (seen : List String) :
    (ref? v = none ∧ follow doc (fuel + 1) seen v pointer = .ok (v, pointer)) ∨
    (∃ target, target? v = some target ∧ follow doc (fuel + 1) seen v pointer =
      if seen.contains target then .error (.schema target .circularChain)
      else resolve doc target >>= fun w => follow doc fuel (target :: seen) w target) ∨
    (target? v = none ∧ ∃ e, follow doc (fuel + 1) seen v pointer = .error e ∧ e.isLocal = true ∧
      ∀ q, e ≠ .schema q .circularChain) := by
  rw [follow]
  split
  · next href => exact .inl ⟨href, rfl⟩
  · next ref href =>
    cases hnormalize : Pointer.normalize ref with
    | ok target =>
      refine .inr (.inl ⟨target, target?_eq_some_iff.2 ⟨ref, href, hnormalize⟩, ?_⟩)
      change (if _ then _ else _) = _
      split
      · rfl
      · rfl
    | error e =>
      have hastray := Pointer.normalize_astray ref e hnormalize
      refine .inr (.inr ⟨by rw [target?, href]; dsimp only; rw [hnormalize]; rfl, e, rfl,
        Pointer.normalize_local ref e hnormalize, ?_⟩)
      rintro q rfl
      cases hastray
  · next ref hne href =>
    refine .inr (.inr ⟨?_, _, rfl, rfl, nofun⟩)
    rw [target?, href]
    split
    · next heq => exact (hne _ (Option.some.inj heq)).elim
    · rfl

/-- Following a chain ends. The pointers in `seen` are different places, and so are those that references of
the document name, so they do not outnumber `places`. -/
theorem follow_local {places : List String} (hplaces : ∀ p ∈ targets doc, p ∈ places) {fuel : Nat}
    {seen : List String} (hv : ∀ p ∈ target? v, p ∈ places) (hnodup : seen.Nodup)
    (hseen : ∀ p ∈ seen, p ∈ places) (hfuel : places.length < fuel + seen.length) :
    Local (follow doc fuel seen v pointer) := by
  induction fuel generalizing seen v pointer with
  | zero =>
    have hseen := (hnodup.subperm hseen).length_le
    omega
  | succ fuel ih =>
    rcases follow_cases doc v pointer fuel seen with ⟨-, h⟩ | ⟨target, htarget, h⟩ | ⟨-, e, h, he, -⟩
    · rw [h]
      exact .ok
    · rw [h]
      split
      · exact .error rfl
      · next hnew =>
        refine (resolve_local doc target).bind fun w hw => ih (fun p hp => hplaces p ?_) ?_ ?_ ?_
        · exact List.mem_filterMap.2 ⟨w, mem_of_resolve hw, hp⟩
        · exact List.nodup_cons.2 ⟨fun hmem => hnew (List.contains_iff_mem.2 hmem), hnodup⟩
        · exact List.forall_mem_cons.2 ⟨hv target htarget, hseen⟩
        · rw [List.length_cons]
          omega
    · rw [h]
      exact .error he

theorem deref_local (doc v : Value) (pointer : String) : Local (deref doc v pointer) := by
  refine @follow_local doc v pointer ((target? v).toList ++ targets doc) (fun p hp => ?_) _ _ (fun p hp => ?_)
    List.nodup_nil nofun ?_
  · exact List.mem_append_right _ hp
  · exact List.mem_append_left _ (Option.mem_toList.2 hp)
  · have hlength := length_targets_le doc
    have hone := Option.length_toList_le (o := target? v)
    rw [List.length_append, List.length_nil]
    omega

theorem follow_ok {fuel : Nat} {seen : List String} {q : String} {w : Value}
    (h : follow doc fuel seen v pointer = .ok (w, q)) :
    ref? w = none ∧ ∃ trail, Forwards doc v pointer trail w q := by
  induction fuel generalizing seen v pointer with
  | zero => cases h
  | succ fuel ih =>
    rcases follow_cases doc v pointer fuel seen with ⟨href, heq⟩ | ⟨target, htarget, heq⟩ | ⟨-, e, heq, -⟩
    · rw [heq] at h
      cases h
      exact ⟨href, [], .here w q⟩
    · rw [heq] at h
      split at h
      · cases h
      · obtain ⟨x, hx, h⟩ := bind_ok.1 h
        obtain ⟨href, trail, hforwards⟩ := ih h
        exact ⟨href, target :: trail, .next htarget hx hforwards⟩
    · rw [heq] at h
      cases h

/-- Behind references there is a value that stands in the document and is no reference. -/
theorem deref_ok {q : String} {w : Value} (hv : Held doc v) (h : deref doc v pointer = .ok (w, q)) :
    Held doc w ∧ ref? w = none := by
  obtain ⟨href, trail, hforwards⟩ := follow_ok h
  rcases hforwards.resolve_end with ⟨rfl, -⟩ | ⟨-, hresolve⟩
  · exact ⟨hv, href⟩
  · exact ⟨.inl (mem_of_resolve hresolve), href⟩

/-! ### Chains that come back -/

theorem follow_circular {fuel : Nat} {seen : List String} {target : String}
    (h : follow doc fuel seen v pointer = .error (.schema target .circularChain)) :
    ∃ trail w q, Forwards doc v pointer trail w q ∧ target? w = some target ∧
      (target ∈ trail ∨ target ∈ seen) := by
  induction fuel generalizing seen v pointer with
  | zero => cases h
  | succ fuel ih =>
    rcases follow_cases doc v pointer fuel seen with ⟨-, heq⟩ | ⟨next, hnext, heq⟩ | ⟨-, e, heq, -, hne⟩
    · rw [heq] at h
      cases h
    · rw [heq] at h
      split at h
      · next hmem =>
        cases h
        exact ⟨[], v, pointer, .here v pointer, hnext, .inr (List.contains_iff_mem.1 hmem)⟩
      · cases hw : resolve doc next with
        | error e =>
          rw [hw] at h
          cases h
          cases resolve_astray doc next _ hw
        | ok w =>
          rw [hw] at h
          obtain ⟨trail, x, q, hforwards, htarget, hmem⟩ := ih h
          refine ⟨next :: trail, x, q, .next hnext hw hforwards, htarget, ?_⟩
          rcases hmem with hmem | hmem
          · exact .inl (List.mem_cons_of_mem _ hmem)
          · rcases List.mem_cons.1 hmem with rfl | hmem
            · exact .inl List.mem_cons_self
            · exact .inr hmem
    · rw [heq] at h
      exact (hne target (Except.error.inj h)).elim

theorem follow_of_target {target : String} (h : target? v = some target) {fuel : Nat} {seen : List String} :
    follow doc (fuel + 1) seen v pointer =
      if seen.contains target then .error (.schema target .circularChain)
      else resolve doc target >>= fun w => follow doc fuel (target :: seen) w target := by
  rcases follow_cases doc v pointer fuel seen with ⟨href, -⟩ | ⟨target', h', heq⟩ | ⟨hnone, -⟩
  · obtain ⟨ref, href', -⟩ := target?_eq_some_iff.1 h
    rw [href] at href'
    cases href'
  · obtain rfl := Option.some.inj (h.symm.trans h')
    exact heq
  · rw [h] at hnone
    cases hnone

/-- A chain that comes back is not followed to its end, nor does it fail before it has come back. -/
theorem Forwards.follow_returns {w : Value} {q target : String} {trail : List String}
    (h : Forwards doc v pointer trail w q) (htarget : target? w = some target) {seen : List String}
    (hmem : target ∈ trail ∨ target ∈ seen) (fuel : Nat) :
    follow doc fuel seen v pointer = .error .exhausted ∨
      ∃ p, follow doc fuel seen v pointer = .error (.schema p .circularChain) := by
  induction h generalizing fuel seen with
  | here v pointer =>
    cases fuel with
    | zero => exact .inl rfl
    | succ fuel =>
      have hseen : target ∈ seen := hmem.resolve_left nofun
      rw [follow_of_target htarget, if_pos (List.contains_iff_mem.2 hseen)]
      exact .inr ⟨target, rfl⟩
  | @next v w x pointer p q trail hp hw _ ih =>
    cases fuel with
    | zero => exact .inl rfl
    | succ fuel =>
      rw [follow_of_target hp]
      split
      · exact .inr ⟨p, rfl⟩
      · rw [hw]
        refine ih htarget ?_ fuel
        rcases hmem with hmem | hmem
        · rcases List.mem_cons.1 hmem with rfl | hmem
          · exact .inr List.mem_cons_self
          · exact .inl hmem
        · exact .inr (List.mem_cons_of_mem _ hmem)

/-- References are followed to an end from every value. What is found there is no reference; it is the
value that was asked about, or stands at the canonical pointer that is given with it. The chain is called
circular if and only if it comes back to a pointer that was followed. -/
theorem deref_ends_or_returns (doc v : Value) (pointer : String) :
    deref doc v pointer ≠ .error .exhausted ∧
    (∀ w q, deref doc v pointer = .ok (w, q) →
      ref? w = none ∧ (∃ trail, Forwards doc v pointer trail w q) ∧
      ((w, q) = (v, pointer) ∨ (∃ ts, q = Pointer.join "#" ts) ∧ resolve doc q = .ok w)) ∧
    ((∃ p, deref doc v pointer = .error (.schema p .circularChain)) ↔
      ∃ trail w q target, Forwards doc v pointer trail w q ∧ target? w = some target ∧
        target ∈ trail) := by
  have hends : deref doc v pointer ≠ .error .exhausted :=
    fun h => Fault.ne_exhausted _ (deref_local doc v pointer _ h) rfl
  refine ⟨hends, fun w q h => ?_, ?_, ?_⟩
  · obtain ⟨href, trail, hforwards⟩ := follow_ok h
    refine ⟨href, ⟨trail, hforwards⟩, ?_⟩
    rcases hforwards.resolve_end with ⟨rfl, rfl⟩ | ⟨⟨ref, hnormalize⟩, hresolve⟩
    · exact .inl rfl
    · obtain ⟨ts, -, hjoin⟩ := bind_ok.1 hnormalize
      exact .inr ⟨⟨ts, (pure_ok.1 hjoin).symm⟩, hresolve⟩
  · rintro ⟨p, h⟩
    obtain ⟨trail, w, q, hforwards, htarget, hmem⟩ := follow_circular h
    exact ⟨trail, w, q, p, hforwards, htarget, hmem.resolve_right nofun⟩
  · rintro ⟨trail, w, q, target, hforwards, htarget, hmem⟩
    exact (hforwards.follow_returns htarget (.inl hmem) _).resolve_left hends

end Document
end OpenApi
