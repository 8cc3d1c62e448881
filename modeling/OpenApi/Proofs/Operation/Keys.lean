import OpenApi.Operation.Parse
import OpenApi.Proofs.Document
import OpenApi.Proofs.Notice

/-!
Operations are told apart by method and path. In a document no mapping of which has a key twice, no two
operations have the same key.
-/
namespace OpenApi

open Outcome (pairwise_of_forall₂)

namespace Value

/-- The keys of a mapping; other values have none. -/
def keys : Value → List Scalar
  | .map entries => entries.map Prod.fst
  | _ => []

/-- No mapping in a value has a key twice. -/
def KeysApart (v : Value) : Prop := ∀ w ∈ v.subvalues, w.keys.Nodup

instance (v : Value) : Decidable v.KeysApart :=
  inferInstanceAs (Decidable (∀ w ∈ v.subvalues, w.keys.Nodup))

theorem KeysApart.entries {doc v : Value} (h : doc.KeysApart) (hv : Held doc v) {entries : Entries}
    (hentries : v.entries = .ok entries) : (entries.map Prod.fst).Nodup := by
  rw [entries_ok hentries] at hv
  rcases hv with hv | hsize
  · exact h _ hv
  · -- a mapping of size one is empty
    cases entries with
    | nil => exact List.nodup_nil
    | cons e rest =>
      have hlt : e.2.size < (Value.map (e :: rest)).size := size_lt_of_entry List.mem_cons_self
      have hpos := e.2.size_pos
      omega

end Value

namespace Operation

variable {doc : Value} {path : Scalar} {op : Operation} {raw : Value} {ops : List Operation}

/-- The method ends at the first blank of a key. -/
theorem key_inj {a b : Operation} (ha : a.method ∈ Document.methods) (hb : b.method ∈ Document.methods)
    (h : a.key = b.key) : a.method = b.method ∧ a.path = b.path := by
  have hupper : ∀ m ∈ Document.methods, ' ' ∉ (Text.upper m).toList ∧
      ∀ n ∈ Document.methods, Text.upper m = Text.upper n → m = n := by decide +kernel
  have hblank : ∀ m ∈ Document.methods, ∀ c ∈ (Text.upper m).toList, decide (c ≠ ' ') = true :=
    fun m hm c hc => decide_eq_true fun heq => (hupper m hm).1 (heq ▸ hc)
  have hkey : ∀ op : Operation, op.key.toList = (Text.upper op.method).toList ++ ' ' :: op.path.toList := by
    intro op
    simp [key]
  have hlist := congrArg String.toList h
  rw [hkey, hkey] at hlist
  have hmethod := congrArg (List.takeWhile (· ≠ ' ')) hlist
  have hpath := congrArg (List.dropWhile (· ≠ ' ')) hlist
  rw [List.takeWhile_append_of_pos (hblank _ ha), List.takeWhile_append_of_pos (hblank _ hb)] at hmethod
  rw [List.dropWhile_append_of_pos (hblank _ ha), List.dropWhile_append_of_pos (hblank _ hb)] at hpath
  simp only [ne_eq, not_true_eq_false, decide_false, Bool.false_eq_true, not_false_eq_true,
    List.takeWhile_cons_of_neg, List.dropWhile_cons_of_neg, List.append_nil, List.cons.injEq,
    true_and] at hmethod hpath
  exact ⟨(hupper _ ha).2 _ hb (String.toList_injective hmethod), String.toList_injective hpath⟩

/-- The steps of reading an operation that tell of its key or of schemas. -/
theorem parse_ok {method pointer : String} {operation : Value} {shared : List RawParameter}
    (h : (parse doc path method operation pointer shared).result = .ok op) :
    ∃ own merged, ∃ body : Body, listed operation pointer = .ok own ∧
      (mergeParameters doc [] (shared ++ own)).result = .ok merged ∧
      (operation.has "requestBody" = .ok true ∧ parseBody doc operation pointer = .ok body ∨
        bodyParameter doc (shared ++ own) = .ok body) ∧
      op.parameters = merged.map Prod.snd ∧ op.body = body.schema ∧
      parseResponses doc operation pointer = .ok op.responses ∧ op.method = method ∧ path = .str op.path := by
  obtain ⟨own, hown, h⟩ := Traced.bind_ok.1 h
  obtain ⟨merged, hmerged, h⟩ := Traced.bind_ok.1 h
  split at h
  · obtain ⟨_, -, h⟩ := Traced.bind_ok.1 h
    obtain ⟨held, hheld, h⟩ := Traced.bind_ok.1 h
    obtain ⟨body, hbody, h⟩ := Traced.ite_bind_ok h
    obtain ⟨id, -, h⟩ := Traced.bind_ok.1 h
    obtain ⟨summary, -, h⟩ := Traced.bind_ok.1 h
    obtain ⟨description, -, h⟩ := Traced.bind_ok.1 h
    obtain ⟨tags, -, h⟩ := Traced.bind_ok.1 h
    obtain ⟨tags, -, h⟩ := Traced.bind_ok.1 h
    obtain ⟨deprecated, -, h⟩ := Traced.bind_ok.1 h
    obtain ⟨security, -, h⟩ := Traced.bind_ok.1 h
    obtain ⟨security, -, h⟩ := Traced.bind_ok.1 h
    obtain ⟨responses, hresponses, h⟩ := Traced.bind_ok.1 h
    cases h
    refine ⟨own, merged, body, hown, hmerged, ?_, rfl, rfl, hresponses, rfl, rfl⟩
    exact hbody.imp_left fun ⟨htrue, hbody⟩ => ⟨htrue ▸ hheld, hbody⟩
  · cases h

theorem method?_eq_some {key : Scalar} {method : String} (h : Document.method? key = some method) :
    key = .str method ∧ method ∈ Document.methods := by
  unfold Document.method? at h
  split at h
  · split at h
    · next hmem =>
      cases h
      exact ⟨rfl, List.contains_iff_mem.1 hmem⟩
    · cases h
  · cases h

/-- The methods that a path item has operations for, each with what describes it. -/
def itemMethods (entries : Entries) : List (String × Value) :=
  entries.filterMap fun (key, operation) =>
    (Document.method? key).map fun method => (method, operation)

theorem method?_of_itemMethods {e : Scalar × Value} {m : String × Value}
    (h : ((Document.method? e.1).map fun method => (method, e.2)) = some m) :
    e.1 = .str m.1 ∧ m.1 ∈ Document.methods := by
  obtain ⟨method, hmethod, rfl⟩ := Option.map_eq_some_iff.1 h
  exact method?_eq_some hmethod

theorem itemMethods_apart {entries : Entries} (h : (entries.map Prod.fst).Nodup) :
    (itemMethods entries).Pairwise fun a b => a.1 ≠ b.1 := by
  rw [itemMethods, List.pairwise_filterMap]
  rw [List.Nodup, List.pairwise_map] at h
  refine h.imp fun {a b} hab m hm n hn heq => hab ?_
  rw [(method?_of_itemMethods hm).1, (method?_of_itemMethods hn).1, heq]

/-- The operations of a path are those of the methods that its item has. -/
theorem parseItem_ok (h : (parseItem doc path raw).result = .ok ops) : ∃ text item pointer shared entries,
    path.text = .ok text ∧ Document.deref doc raw (Pointer.child "#/paths" text) = .ok (item, pointer) ∧
      listed item pointer = .ok shared ∧ item.entries = .ok entries ∧
        List.Forall₂ (fun m op => (parse doc path m.1 m.2 (Pointer.child pointer m.1) shared).result = .ok op)
          (itemMethods entries) ops := by
  obtain ⟨text, htext, h⟩ := Traced.bind_ok.1 h
  obtain ⟨⟨item, pointer⟩, hitem, h⟩ := Traced.bind_ok.1 h
  obtain ⟨shared, hshared, h⟩ := Traced.bind_ok.1 h
  obtain ⟨entries, hentries, h⟩ := Traced.bind_ok.1 h
  rw [Traced.result_mapM] at h
  exact ⟨text, item, pointer, shared, entries, htext, hitem, hshared, hentries, Outcome.mapM_ok.1 h⟩

theorem parseAll_ok (h : (parseAll doc).result = .ok ops) : ∃ paths entries parsed,
    Document.paths doc = .ok paths ∧ paths.entries = .ok entries ∧
      List.Forall₂ (fun e ops => (parseItem doc e.1 e.2).result = .ok ops) entries parsed ∧
        ops = parsed.flatten := by
  obtain ⟨paths, hpaths, h⟩ := Traced.bind_ok.1 h
  obtain ⟨entries, hentries, h⟩ := Traced.bind_ok.1 h
  obtain ⟨parsed, hparsed, h⟩ := Traced.bind_ok.1 h
  rw [Traced.result_mapM] at hparsed
  cases h
  exact ⟨paths, entries, parsed, hpaths, hentries, Outcome.mapM_ok.1 hparsed, rfl⟩

theorem parseItem_mem (h : (parseItem doc path raw).result = .ok ops) (hop : op ∈ ops) :
    op.method ∈ Document.methods ∧ path = .str op.path := by
  obtain ⟨_, _, _, _, entries, -, -, -, -, hall⟩ := parseItem_ok h
  obtain ⟨m, hm, hparse⟩ := Outcome.exists_mem_of_forall₂ hall.flip hop
  obtain ⟨-, -, -, -, -, -, -, -, -, hmethod, hpath⟩ := parse_ok hparse
  obtain ⟨e, -, he⟩ := List.mem_filterMap.1 hm
  exact ⟨hmethod ▸ (method?_of_itemMethods he).2, hpath⟩

theorem parseItem_keys (hdoc : doc.KeysApart) (hraw : Held doc raw)
    (h : (parseItem doc path raw).result = .ok ops) :
    (∀ op ∈ ops, op.method ∈ Document.methods ∧ path = .str op.path) ∧
      ops.Pairwise fun a b => a.method ≠ b.method := by
  obtain ⟨_, item, _, _, entries, -, hitem, -, hentries, hall⟩ := parseItem_ok h
  have hapart := itemMethods_apart (hdoc.entries (Document.deref_ok hraw hitem).1 hentries)
  refine ⟨fun op hop => parseItem_mem h hop, ?_⟩
  refine pairwise_of_forall₂ hall hapart fun hab ha hb heq => hab ?_
  obtain ⟨-, -, -, -, -, -, -, -, -, ha, -⟩ := parse_ok ha
  obtain ⟨-, -, -, -, -, -, -, -, -, hb, -⟩ := parse_ok hb
  exact ha.symm.trans (heq.trans hb)

theorem parseAll_methods (h : (parseAll doc).result = .ok ops) (hop : op ∈ ops) :
    op.method ∈ Document.methods := by
  obtain ⟨_, _, parsed, -, -, hparsed, rfl⟩ := parseAll_ok h
  obtain ⟨ops, hops, hop⟩ := List.mem_flatten.1 hop
  obtain ⟨e, -, he⟩ := Outcome.exists_mem_of_forall₂ hparsed.flip hops
  exact (parseItem_mem he hop).1

/-- No two operations have the same key. -/
theorem parseAll_keys (hdoc : doc.KeysApart) (h : (parseAll doc).result = .ok ops) :
    ops.Pairwise fun a b => a.key ≠ b.key := by
  obtain ⟨paths, entries, parsed, hpaths, hentries, hparsed, rfl⟩ := parseAll_ok h
  have hnodup := hdoc.entries (Document.held_paths hpaths) hentries
  have hheld : ∀ e ∈ entries, Held doc e.2 := fun e he =>
    (Document.held_paths hpaths).entries hentries he
  have hitems := ((List.forall₂_and_left _ _).2 ⟨hheld, hparsed⟩).imp
    fun e ops hops => parseItem_keys hdoc hops.1 hops.2
  refine List.pairwise_flatten.2 ⟨fun ops hops => ?_, ?_⟩
  · -- operations of one path differ in their methods
    obtain ⟨e, -, hmethods, hapart⟩ := Outcome.exists_mem_of_forall₂ hitems.flip hops
    exact hapart.imp_of_mem fun ha hb hab heq =>
      hab (key_inj (hmethods _ ha).1 (hmethods _ hb).1 heq).1
  · rw [List.Nodup, List.pairwise_map] at hnodup
    refine pairwise_of_forall₂ hitems hnodup fun hne hx hy a ha b hb heq => hne ?_
    obtain ⟨hmethod, hpath⟩ := hx.1 a ha
    obtain ⟨hmethod', hpath'⟩ := hy.1 b hb
    rw [hpath, hpath', (key_inj hmethod hmethod' heq).2]

end Operation
end OpenApi
