import Mathlib.Data.List.Nodup
import OpenApi.Proofs.Name.Identifier
import OpenApi.Proofs.Schema.Components
import OpenApi.Proofs.Types.Order
import OpenApi.Types.Mapper

/-!
The names of types. Named schemas keep their names, and targets of markers get names that are not taken
yet, so no two ids have the same name.
-/
namespace OpenApi

open Outcome (bind_ok bind_pure_ok pure_ok)
namespace Mapper
open Assoc (keys)
open NamedTypes (Apart)

variable {pointer : String} {named : List (String × Scalar)} {m : Mapper}

/-! ### Names that are not taken -/

/-- The names that are tried for a target, by the number of attempts before. -/
def candidate (base : String) (i : Nat) : String :=
  if i + 1 ≤ 1 then base else base ++ "_" ++ Nat.repr (i + 1)

theorem candidate_inj {base : String} {i j : Nat} (h : candidate base i = candidate base j) :
    i = j := by
  have hlength : ∀ n, base ≠ base ++ "_" ++ Nat.repr n := by
    intro n heq
    have hlen := congrArg (fun s => s.toList.length) heq
    simp at hlen
  unfold candidate at h
  split at h <;> split at h
  · omega
  · exact absurd h (hlength _)
  · exact absurd h.symm (hlength _)
  · have hl := congrArg String.toList h
    simp only [String.toList_append, Nat.toList_repr] at hl
    have hnumber := congrArg (fun ds => Nat.ofDigitChars 10 ds 0) (List.append_cancel_left hl)
    simp only [Nat.ofDigitChars_ten_toDigits] at hnumber
    omega

/-- There are more attempts than names that are taken. -/
theorem freshName_not_mem (taken : List Scalar) (base : String) :
    .str (freshName taken base) ∉ taken := by
  have hnot : ∀ name, (!taken.any (·.same (.str name))) = true ↔ Scalar.str name ∉ taken := by
    intro name
    rw [Bool.not_eq_true', List.any_eq_false]
    constructor
    · exact fun h hmem => h _ hmem (Scalar.same_str_iff.2 rfl)
    · exact fun h s hs hsame => h (Scalar.same_str_iff.1 hsame ▸ hs)
  change Scalar.str ((((List.range (taken.length + 1)).map (candidate base)).find? fun name =>
    !taken.any (·.same (.str name))).getD base) ∉ taken
  cases hfind : ((List.range (taken.length + 1)).map (candidate base)).find? fun name =>
    !taken.any (·.same (.str name)) with
  | some name => exact (hnot name).1 (by simpa using List.find?_some hfind)
  | none =>
    -- all candidates would be taken, and they are one more than the names that are
    have htaken : ∀ s ∈ (List.range (taken.length + 1)).map fun i => Scalar.str (candidate base i),
        s ∈ taken := by
      intro s hs
      obtain ⟨i, hi, rfl⟩ := List.mem_map.1 hs
      have hin := List.find?_eq_none.1 hfind (candidate base i) (List.mem_map_of_mem hi)
      by_contra hmem
      exact hin ((hnot _).2 hmem)
    have hnodup : ((List.range (taken.length + 1)).map fun i =>
        Scalar.str (candidate base i)).Nodup := by
      exact List.Nodup.map (fun i j h => candidate_inj (Scalar.str.inj h)) List.nodup_range
    have hlength := (hnodup.subperm htaken).length_le
    simp only [List.length_map, List.length_range] at hlength
    omega

theorem freshName_cases (taken : List Scalar) (base : String) :
    ∃ tail, freshName taken base = base ++ tail := by
  change ∃ tail, (((List.range (taken.length + 1)).map (candidate base)).find? fun name =>
    !taken.any (·.same (.str name))).getD base = base ++ tail
  cases hfind : ((List.range (taken.length + 1)).map (candidate base)).find? fun name =>
    !taken.any (·.same (.str name)) with
  | none => exact ⟨"", by simp⟩
  | some name =>
    obtain ⟨i, -, rfl⟩ := List.mem_map.1 (List.mem_of_find?_eq_some hfind)
    unfold candidate
    split
    · exact ⟨"", by simp⟩
    · exact ⟨"_" ++ Nat.repr (i + 1), by rw [Option.getD_some, String.append_assoc]⟩

/-- A name that is made of a pointer has letters or digits. -/
theorem solids_typeNameOfPointer {name : String} (h : typeNameOfPointer pointer = .ok name) :
    0 < Identifier.solids name := by
  obtain ⟨tokens, -, rfl⟩ := bind_pure_ok.1 h
  split
  · decide
  · next hwords =>
    refine Identifier.solids_join_pos (fun c hc => ?_) (by simpa using hwords)
    simp [Identifier.isSolid, (Bool.not_eq_false' _).mp hc]

/-- A name that was made up has content. -/
theorem truthy_freshName {base : String} (taken : List Scalar)
    (h : typeNameOfPointer pointer = .ok base) :
    (Value.scalar (.str (freshName taken base))).truthy = true := by
  obtain ⟨tail, htail⟩ := freshName_cases taken base
  have hpos : 0 < Identifier.solids (freshName taken base) := by
    rw [htail, Identifier.solids_append]
    exact Nat.lt_of_lt_of_le (solids_typeNameOfPointer h) (Nat.le_add_right _ _)
  change (!(freshName taken base).isEmpty) = true
  rw [Bool.not_eq_true', Bool.eq_false_iff]
  intro hempty
  rw [String.isEmpty_iff.1 hempty] at hpos
  cases hpos

/-! ### Targets of markers -/

/-- Every id has one name, and no two have the same. -/
structure Distinct (names : List (String × Scalar)) : Prop where
  ids : (keys names).Nodup
  nodup : (names.map Prod.snd).Nodup
  apart : Apart (names.map Prod.snd)

theorem Distinct.append {names : List (String × Scalar)} (h : Distinct names) {id name : String}
    (hid : id ∉ keys names) (hname : .str name ∉ names.map Prod.snd) :
    Distinct (names ++ [(id, .str name)]) where
  ids := Assoc.nodup_keys_append h.ids hid
  nodup := by
    rw [List.map_append]
    refine List.nodup_append.2 ⟨h.nodup, by simp, fun a ha b hb heq => hname ?_⟩
    have hb : b = .str name := List.mem_singleton.1 hb
    rwa [← hb, ← heq]
  apart := by
    intro a ha b hb hsame
    rw [List.map_append, List.mem_append] at ha hb
    rcases ha with ha | ha <;> rcases hb with hb | hb
    · exact h.apart a ha b hb hsame
    · obtain rfl : b = .str name := by simpa using hb
      exact Scalar.same_str_iff.1 hsame
    · obtain rfl : a = .str name := by simpa using ha
      exact (Scalar.str_same_iff.1 hsame).symm
    · obtain rfl : a = .str name := by simpa using ha
      obtain rfl : b = .str name := by simpa using hb
      rfl

variable {recursive ids : List String} {names names' : List (String × Scalar)}

/-- What is kept by naming one id that has no name is kept by naming all targets. -/
theorem nameTargets_inv (P : List (String × Scalar) → Prop)
    (step : ∀ names id base, id ∈ ids → id ∉ keys names → typeNameOfPointer id = .ok base → P names →
      P (names ++ [(id, .str (freshName (names.map Prod.snd) base))]))
    (hnames : P names) (h : nameTargets recursive names ids = .ok names') : P names' := by
  induction ids generalizing names with
  | nil =>
    cases h
    exact hnames
  | cons id rest ih =>
    have hrest : ∀ names j base, j ∈ rest → j ∉ keys names → typeNameOfPointer j = .ok base →
        P names → P (names ++ [(j, .str (freshName (names.map Prod.snd) base))]) :=
      fun names j base hj => step names j base (List.mem_cons_of_mem _ hj)
    rw [nameTargets] at h
    split at h
    · next hnew =>
      obtain ⟨base, hbase, h⟩ := bind_ok.1 h
      have hid : id ∉ keys names := by
        intro hmem
        simp [Assoc.has_iff.2 hmem] at hnew
      exact ih hrest (step names id base (List.mem_cons_self ..) hid hbase hnames) h
    · exact ih hrest hnames h

theorem distinct_nameTargets (hd : Distinct names)
    (h : nameTargets recursive names ids = .ok names') : Distinct names' :=
  nameTargets_inv Distinct (fun _ _ base _ hid _ hd => hd.append hid (freshName_not_mem _ base)) hd h

theorem nodup_nameTargets (hk : (keys names).Nodup)
    (h : nameTargets recursive names ids = .ok names') : (keys names').Nodup :=
  nameTargets_inv (fun names => (keys names).Nodup)
    (fun _ _ _ _ hid _ hk => Assoc.nodup_keys_append hk hid) hk h

theorem mem_nameTargets (h : nameTargets recursive names ids = .ok names') :
    ∀ e ∈ names, e ∈ names' :=
  nameTargets_inv (fun names' => ∀ e ∈ names, e ∈ names')
    (fun _ _ _ _ _ _ hsub e he => List.mem_append_left _ (hsub e he)) (fun _ => id) h

theorem keys_nameTargets (h : nameTargets recursive names ids = .ok names') :
    ∀ id ∈ keys names', id ∈ keys names ∨ id ∈ ids := by
  refine nameTargets_inv (fun names' => ∀ id ∈ keys names', id ∈ keys names ∨ id ∈ ids) ?_
    (fun _ => .inl) h
  intro names' id base hid _ _ hsub j hj
  rw [Assoc.keys_append, List.mem_append] at hj
  rcases hj with hj | hj
  · exact hsub j hj
  · obtain rfl : j = id := List.mem_singleton.1 hj
    exact .inr hid

/-- All targets of markers have names in the end. -/
theorem target_mem_nameTargets (h : nameTargets recursive names ids = .ok names') :
    ∀ id ∈ ids, id ∈ recursive → id ∈ keys names' := by
  induction ids generalizing names with
  | nil => exact nofun
  | cons id rest ih =>
    rw [nameTargets] at h
    split at h
    · obtain ⟨base, -, h⟩ := bind_ok.1 h
      refine List.forall_mem_cons.2 ⟨fun _ => ?_, ih h⟩
      apply Assoc.mem_keys_of_mem
      exact mem_nameTargets h _ (List.mem_append_right _ (List.mem_singleton_self _))
    · next hold =>
      refine List.forall_mem_cons.2 ⟨fun hin => ?_, ih h⟩
      have hhas : Assoc.has names id = true := by simpa [hin] using hold
      obtain ⟨name, hname⟩ := Assoc.exists_of_mem_keys (Assoc.has_iff.1 hhas)
      exact Assoc.mem_keys_of_mem (mem_nameTargets h _ hname)

/-- Targets that are pointers can be named. -/
theorem exists_nameTargets
    (h : ∀ id ∈ recursive, ∃ ts, Pointer.tokens id = .ok ts) (names : List (String × Scalar))
    (ids : List String) : ∃ names', nameTargets recursive names ids = .ok names' := by
  induction ids generalizing names with
  | nil => exact ⟨names, rfl⟩
  | cons id rest ih =>
    rw [nameTargets]
    split
    · next hnew =>
      obtain ⟨hin, -⟩ := Bool.and_eq_true_iff.1 hnew
      obtain ⟨ts, hts⟩ := h id (by simpa using hin)
      obtain ⟨base, hbase⟩ : ∃ base, typeNameOfPointer id = .ok base := by
        unfold typeNameOfPointer
        rw [hts]
        exact ⟨_, rfl⟩
      obtain ⟨names', hnames'⟩ := ih (names ++ [(id, .str (freshName (names.map Prod.snd) base))])
      exact ⟨names', bind_ok.2 ⟨base, hbase, hnames'⟩⟩
    · exact ih names

/-! ### Named schemas -/

open Resolve (Setting Arena Completed NamesApart NamesWorded NamedSchemas TuplesApart rootPlaces)

theorem Distinct.of_ids {names : List (String × Scalar)} (hids : (keys names).Nodup)
    (h : ∀ e ∈ names, ∀ f ∈ names, e.2.same f.2 = true → e.1 = f.1) : Distinct names where
  ids := hids
  nodup := by
    refine List.Nodup.map_on (fun e he f hf heq => ?_) (List.Nodup.of_map Prod.fst hids)
    exact Prod.ext (h e he f hf (heq ▸ Scalar.same_self _)) heq
  apart := by
    intro a ha b hb hsame
    obtain ⟨e, he, rfl⟩ := List.mem_map.1 ha
    obtain ⟨f, hf, rfl⟩ := List.mem_map.1 hb
    have hlookup := Assoc.lookup_of_mem hids he
    rw [h e he f hf hsame, Assoc.lookup_of_mem hids hf] at hlookup
    exact (Option.some.inj hlookup).symm

/-- The name of the node at an id. -/
def nodeName? (table : SchemaTable) (id : String) : Option Scalar :=
  (table.nodes.lookup id).bind (·.name)

theorem componentNames_eq {table : SchemaTable} (h : componentNames table = .ok named) :
    named = table.roots.filterMap fun id => (nodeName? table id).map (id, ·) := by
  obtain ⟨pairs, hpairs, rfl⟩ := bind_pure_ok.1 h
  have hmap : table.roots.map (fun id => (id, nodeName? table id)) = pairs := by
    rw [← List.forall₂_eq_eq_eq, List.forall₂_map_left_iff]
    refine (Outcome.mapM_ok.1 hpairs).imp fun id pair hpair => ?_
    obtain ⟨n, hn, rfl⟩ := bind_pure_ok.1 hpair
    rw [nodeName?, SchemaTable.node_ok_iff.1 hn]
    rfl
  rw [← hmap, List.filterMap_map]
  rfl

theorem keys_filterMap_sublist {ids : List String} {name? : String → Option Scalar} :
    (keys (ids.filterMap fun id => (name? id).map (id, ·))).Sublist ids := by
  induction ids with
  | nil => exact List.Sublist.refl _
  | cons id rest ih =>
    cases hname : name? id with
    | none =>
      simp only [List.filterMap_cons, hname, Option.map_none]
      exact ih.cons id
    | some name =>
      simp only [List.filterMap_cons, hname, Option.map_some, Assoc.keys_cons]
      exact ih.cons_cons id

variable {setting : Setting} {a : Arena} {table : SchemaTable}

theorem nodup_componentNames (hc : Completed setting a table) (h : componentNames table = .ok named) :
    (keys named).Nodup := by
  rw [componentNames_eq h]
  refine keys_filterMap_sublist.nodup ?_
  rw [hc.roots]
  exact Assoc.nodup_distinct _

/-- The names of components are those of the document. -/
theorem mem_names_of_component (hc : Completed setting a table) (h : componentNames table = .ok named) :
    ∀ e ∈ named, (e.1, Value.scalar e.2) ∈ setting.names ∧ e.2 ≠ .null := by
  intro e he
  rw [componentNames_eq h] at he
  obtain ⟨id, -, hid⟩ := List.mem_filterMap.1 he
  obtain ⟨name, hname, rfl⟩ := Option.map_eq_some_iff.1 hid
  obtain ⟨n, hn, hname⟩ := Option.bind_eq_some_iff.1 hname
  have hn : (id, n) ∈ a.nodes := hc.nodes ▸ Assoc.mem_of_lookup hn
  rcases (hc.sound.origin hn).name_cases with hplace | ⟨hnone, -⟩
  · rw [hname, hc.sound.id_eq hn] at hplace
    obtain ⟨hlookup, hnull⟩ := Resolve.placeName_eq_some_iff.1 hplace.symm
    exact ⟨Assoc.mem_of_lookup hlookup, hnull⟩
  · rw [hname] at hnone
    cases hnone

/-- Nodes of named schemas have different names. -/
theorem distinct_componentNames (hc : Completed setting a table) (hapart : NamesApart setting.doc)
    (h : componentNames table = .ok named) : Distinct named := by
  have hmem : ∀ e ∈ named, (e.1, Value.scalar e.2) ∈ setting.names :=
    fun e he => (mem_names_of_component hc h e he).1
  refine .of_ids (nodup_componentNames hc h) fun e he f hf hsame => ?_
  refine hapart setting.names ?_ _ (hmem e he) _ (hmem f hf) ?_
  · simp [hc.names, Except.toOption]
  · simpa [Value.same] using hsame

/-- What is certain of the names that mapping goes by. -/
structure Names (m : Mapper) (table : SchemaTable) : Prop where
  table_eq : m.table = table
  recursive_eq : m.recursive = table.markers.filterMap (·.target)
  nodup : (keys m.names).Nodup
  root : ∀ id ∈ table.roots, ∀ name, nodeName? table id = some name → (id, name) ∈ m.names
  target : ∀ id ∈ keys table.nodes, id ∈ m.recursive → id ∈ keys m.names
  mem : ∀ id ∈ keys m.names, id ∈ keys table.nodes

theorem ofTable_names (hc : Completed setting a table) (h : ofTable table = .ok m) : m.Names table := by
  obtain ⟨named, hnamed, h⟩ := bind_ok.1 h
  obtain ⟨names, hnames, rfl⟩ := bind_pure_ok.1 h
  have heq := componentNames_eq hnamed
  constructor
  case table_eq => rfl
  case recursive_eq => rfl
  case nodup => exact nodup_nameTargets (nodup_componentNames hc hnamed) hnames
  case root =>
    intro id hid name hname
    apply mem_nameTargets hnames
    rw [heq]
    exact List.mem_filterMap.2 ⟨id, hid, by rw [hname]; rfl⟩
  case target => exact target_mem_nameTargets hnames
  case mem =>
    intro id hid
    rcases keys_nameTargets hnames id hid with hid | hid
    · rw [heq] at hid
      exact hc.mem_of_root id (keys_filterMap_sublist.subset hid)
    · exact hid

theorem distinct_ofTable (hc : Completed setting a table) (hapart : NamesApart setting.doc)
    (h : ofTable table = .ok m) : Distinct m.names := by
  obtain ⟨named, hnamed, h⟩ := bind_ok.1 h
  obtain ⟨names, hnames, rfl⟩ := bind_pure_ok.1 h
  exact distinct_nameTargets (distinct_componentNames hc hapart hnamed) hnames

/-- All names have content. -/
def Worded (m : Mapper) : Prop := ∀ e ∈ m.names, (Value.scalar e.2).truthy = true

theorem worded_ofTable (hc : Completed setting a table) (hworded : NamesWorded setting.doc)
    (h : ofTable table = .ok m) : m.Worded := by
  obtain ⟨named, hnamed, h⟩ := bind_ok.1 h
  obtain ⟨names, hnames, rfl⟩ := bind_pure_ok.1 h
  refine nameTargets_inv (fun names => ∀ e ∈ names, (Value.scalar e.2).truthy = true) ?_ ?_ hnames
  · intro names id base _ _ hbase hall
    exact List.forall_mem_append.2 ⟨hall, List.forall_mem_singleton.2 (truthy_freshName _ hbase)⟩
  · intro e he
    obtain ⟨hmem, hnull⟩ := mem_names_of_component hc hnamed e he
    refine (hworded setting.names ?_ _ hmem).resolve_left fun heq => hnull (Value.scalar.inj heq)
    simp [hc.names, Except.toOption]

theorem Distinct.id_eq {names : List (String × Scalar)} (h : Distinct names) {id id' : String}
    {name name' : Scalar} (hid : (id, name) ∈ names) (hid' : (id', name') ∈ names)
    (hsame : name.same name' = true) : id = id' := by
  have heq : name = name' :=
    h.apart name (List.mem_map_of_mem hid) name' (List.mem_map_of_mem hid') hsame
  exact congrArg Prod.fst (List.inj_on_of_nodup_map h.nodup hid hid' heq)

/-- The node of a named schema has its name. -/
theorem nodeName?_eq (hc : Completed setting a table)
    (htuples : TuplesApart setting.doc (rootPlaces setting.doc)) (hnamed : NamedSchemas setting.doc)
    {v : Value} (h : (pointer, v) ∈ setting.names) :
    ∃ name, v = .scalar name ∧ pointer ∈ table.roots ∧ nodeName? table pointer = some name := by
  obtain ⟨⟨name, rfl⟩, s, hs, rfl, hroot⟩ := hc.exists_place h
  obtain ⟨hnull, hschema⟩ := hnamed setting.names (by simp [hc.names, Except.toOption])
  obtain ⟨raw, hraw⟩ := Option.isSome_iff_exists.1 (hschema s hs)
  have hentered : Resolve.Entered setting.doc (rootPlaces setting.doc) s.pointer :=
    ⟨s, raw, .root hroot, rfl, hraw⟩
  have hplace : Resolve.placeName setting s.pointer = some name := by
    refine Resolve.placeName_eq_some_iff.2 ⟨?_, ?_⟩
    · exact Assoc.lookup_of_mem (Resolve.nodup_componentNames hc.names) h
    · rintro rfl
      exact hnull _ h rfl
  obtain ⟨n, hn, hmem⟩ := SchemaTable.exists_node (hc.root_mem s hroot)
  have hid : n.id = s.pointer := hc.closed.id_eq hmem
  refine ⟨name, rfl, ?_, ?_⟩
  · rw [hc.roots, Assoc.mem_distinct]
    exact List.mem_map_of_mem hroot
  · rw [nodeName?, SchemaTable.node_ok_iff.1 hn, Option.bind_some]
    rcases (hc.sound.origin (hc.nodes ▸ hmem)).name_cases with hname | ⟨-, hnot⟩
    · rw [hname, hid, hplace]
    · -- listed items, which are not at the place of a schema
      exact absurd (hid ▸ hentered) (hnot htuples)

/-- Every table of a document can be mapped by. -/
theorem exists_ofTable (hc : Completed setting a table) : ∃ m, ofTable table = .ok m := by
  obtain ⟨named, hnamed⟩ : ∃ named, componentNames table = .ok named := by
    obtain ⟨pairs, hpairs⟩ := Outcome.exists_mapM_ok fun id hid => by
      obtain ⟨n, hn, -⟩ := SchemaTable.exists_node (hc.mem_of_root id hid)
      exact ⟨(id, n.name), bind_ok.2 ⟨n, hn, rfl⟩⟩
    exact ⟨_, bind_ok.2 ⟨pairs, hpairs, rfl⟩⟩
  have htokens : ∀ id ∈ table.markers.filterMap (·.target), ∃ ts, Pointer.tokens id = .ok ts := by
    intro id hid
    obtain ⟨n, hn, ht⟩ := List.mem_filterMap.1 hid
    obtain ⟨⟨k, hk⟩, -⟩ := SchemaTable.mem_markers_iff.1 hn
    obtain ⟨_, _, ref, -, -, -, -, href⟩ := (hc.sound.origin (hc.nodes ▸ hk)).refers ht
    exact Pointer.tokens_of_normalize href
  obtain ⟨names, hnames⟩ := exists_nameTargets htokens named (table.nodes.map Prod.fst)
  exact ⟨_, bind_ok.2 ⟨named, hnamed, bind_ok.2 ⟨names, hnames, rfl⟩⟩⟩

end Mapper
end OpenApi
