import Mathlib.Data.List.Induction
import Mathlib.Tactic.Tauto
import OpenApi.Assoc

/-!
Association lists as finite maps: what the operations do to look-up, to the keys and to the entries.
-/
namespace OpenApi.Assoc

variable {α β : Type} {table : List (α × β)} {k j : α} {v w x : β} {items : List β} {xs : List α}

/-! ### Lists in which items are set -/

section
variable {same : α → α → Bool} {set : α → α → α} {put : List α → α → List α} {y z : α} {acc ys : List α}

/-- An item is put in: one that is the same is set to it and keeps its place, and if there is none it goes
last. -/
structure Puts (same : α → α → Bool) (set : α → α → α) (put : List α → α → List α) : Prop where
  nil : ∀ x, put [] x = [x]
  cons : ∀ y ys x, put (y :: ys) x = if same y x then set y x :: ys else y :: put ys x

namespace Puts
variable (h : Puts same set put)
include h

theorem eq_append {x : α} (hnew : ∀ y ∈ ys, same y x = false) : put ys x = ys ++ [x] := by
  induction ys with
  | nil => exact h.nil x
  | cons y ys ih =>
    obtain ⟨hy, hys⟩ := List.forall_mem_cons.1 hnew
    rw [h.cons, if_neg (by simp [hy]), ih hys, List.cons_append]

theorem foldl_eq_append (acc : List α) (hall : (acc ++ xs).Pairwise fun a b => same a b = false) :
    xs.foldl put acc = acc ++ xs := by
  induction xs generalizing acc with
  | nil => rw [List.append_nil, List.foldl_nil]
  | cons x xs ih =>
    have hnew : ∀ y ∈ acc, same y x = false :=
      fun y hy => (List.pairwise_append.1 hall).2.2 y hy x List.mem_cons_self
    rw [List.append_cons] at hall
    rw [List.foldl_cons, h.eq_append hnew, ih _ hall, ← List.append_cons]

section
variable {R : α → α → Prop} (hself : ∀ x, R x x) (hset : ∀ y x, same y x = true → R (set y x) x)
include hself hset

/-- What is there afterwards was there before, or it is what was put in. -/
theorem mem {x : α} (hz : z ∈ put ys x) : z ∈ ys ∨ R z x := by
  induction ys with
  | nil =>
    rw [h.nil, List.mem_singleton] at hz
    exact .inr (hz ▸ hself x)
  | cons y ys ih =>
    rw [h.cons] at hz
    split at hz
    · next hsame =>
      rcases List.mem_cons.1 hz with rfl | hz
      · exact .inr (hset y x hsame)
      · exact .inl (List.mem_cons_of_mem _ hz)
    · rcases List.mem_cons.1 hz with rfl | hz
      · exact .inl List.mem_cons_self
      · exact (ih hz).imp_left (List.mem_cons_of_mem _)

theorem mem_foldl (hz : z ∈ xs.foldl put acc) : z ∈ acc ∨ ∃ x ∈ xs, R z x := by
  induction xs generalizing acc with
  | nil => exact .inl hz
  | cons x xs ih =>
    rcases ih hz with hz | ⟨x', hx', hR⟩
    · exact (h.mem hself hset hz).imp_right fun hR => ⟨x, List.mem_cons_self, hR⟩
    · exact .inr ⟨x', List.mem_cons_of_mem _ hx', hR⟩

end

section
variable (hleft : ∀ {y x z}, same y x = true → same (set y x) z = true → same y z = true)
  (hright : ∀ {y x z}, same y x = true → same z (set y x) = true → same z x = true)
include hleft hright

/-- Items stay apart. -/
theorem pairwise {x : α} (hys : ys.Pairwise fun a b => same a b = false) :
    (put ys x).Pairwise fun a b => same a b = false := by
  induction ys with
  | nil =>
    rw [h.nil]
    exact List.pairwise_singleton ..
  | cons y ys ih =>
    obtain ⟨hy, hys⟩ := List.pairwise_cons.1 hys
    rw [h.cons]
    split
    · next hsame =>
      refine List.pairwise_cons.2 ⟨fun z hz => Bool.eq_false_iff.2 fun hz' => ?_, hys⟩
      exact Bool.eq_false_iff.1 (hy z hz) (hleft hsame hz')
    · next hsame =>
      refine List.pairwise_cons.2 ⟨fun z hz => Bool.eq_false_iff.2 fun hz' => ?_, ih hys⟩
      -- what was put in is the same as no other
      have hmem := h.mem (R := fun z x => ∀ w, same w z = true → same w x = true) (fun _ _ => id)
        (fun _ _ hyx _ => hright hyx) hz
      exact hmem.elim (fun hmem => Bool.eq_false_iff.1 (hy z hmem) hz') fun hx => hsame (hx y hz')

theorem pairwise_foldl (xs : List α) (hacc : acc.Pairwise fun a b => same a b = false) :
    (xs.foldl put acc).Pairwise fun a b => same a b = false := by
  induction xs generalizing acc with
  | nil => exact hacc
  | cons x xs ih => exact ih (h.pairwise hleft hright hacc)

end

end Puts
end

/-! ### Keys -/

/-- The keys in order of insertion. -/
def keys (table : List (α × β)) : List α := table.map Prod.fst

@[simp] theorem keys_nil : keys ([] : List (α × β)) = [] := rfl

@[simp] theorem keys_cons (e : α × β) (table : List (α × β)) :
    keys (e :: table) = e.1 :: keys table := rfl

@[simp] theorem keys_append (s t : List (α × β)) : keys (s ++ t) = keys s ++ keys t := by
  simp [keys]

theorem nodup_keys_append (hk : (keys table).Nodup) (h : k ∉ keys table) :
    (keys (table ++ [(k, v)])).Nodup := by
  rw [keys_append]
  refine List.nodup_append.2 ⟨hk, by simp, fun a ha b hb heq => h ?_⟩
  have hb : b = k := List.mem_singleton.1 hb
  rwa [← hb, ← heq]

theorem mem_keys_of_mem (h : (k, v) ∈ table) : k ∈ keys table :=
  List.mem_map_of_mem h

theorem exists_of_mem_keys (h : k ∈ keys table) : ∃ v, (k, v) ∈ table := by
  obtain ⟨⟨k', v⟩, hv, rfl⟩ := List.mem_map.1 h
  exact ⟨v, hv⟩

variable [BEq α] [LawfulBEq α]

theorem mem_of_lookup (h : table.lookup k = some v) : (k, v) ∈ table := by
  induction table with
  | nil => simp at h
  | cons e rest ih =>
    obtain ⟨k', w⟩ := e
    rw [List.lookup_cons] at h
    split at h
    · next hk => simp_all
    · exact List.mem_cons_of_mem _ (ih h)

theorem lookup_isSome_iff : (table.lookup k).isSome ↔ k ∈ keys table := by
  induction table with
  | nil => simp
  | cons e rest ih =>
    obtain ⟨k', w⟩ := e
    by_cases hk : k = k'
    · simp [hk]
    · have hb : (k == k') = false := by simpa using hk
      simp [List.lookup_cons, hb, ih, hk]

theorem has_iff : has table k = true ↔ k ∈ keys table :=
  lookup_isSome_iff

theorem exists_lookup (h : k ∈ keys table) : ∃ v, table.lookup k = some v :=
  Option.isSome_iff_exists.1 (lookup_isSome_iff.2 h)

theorem lookup_eq_none_iff : table.lookup k = none ↔ k ∉ keys table := by
  rw [← lookup_isSome_iff]
  cases table.lookup k <;> simp

/-- Where no key stands twice, looking up finds every entry. -/
theorem lookup_of_mem (hk : (keys table).Nodup) (h : (k, v) ∈ table) : table.lookup k = some v := by
  induction table with
  | nil => simp at h
  | cons e rest ih =>
    obtain ⟨k', w⟩ := e
    simp only [keys_cons, List.nodup_cons] at hk
    rcases List.mem_cons.1 h with he | he
    · cases he
      simp
    · have hne : k ≠ k' := fun heq => hk.1 (heq ▸ mem_keys_of_mem he)
      have hb : (k == k') = false := by simpa using hne
      rw [List.lookup_cons, hb]
      exact ih hk.2 he

/-! ### Setting a key -/

omit [LawfulBEq α] in
theorem puts_insert : Puts (fun a b : α × β => a.1 == b.1) (fun a b => (a.1, b.2))
    fun table e => insert table e.1 e.2 :=
  ⟨fun _ => rfl, fun _ _ _ => rfl⟩

theorem insert_of_not_mem (v : β) (h : k ∉ keys table) : insert table k v = table ++ [(k, v)] := by
  refine puts_insert.eq_append (x := (k, v)) fun e he => beq_eq_false_iff_ne.2 ?_
  rintro rfl
  exact h (List.mem_map_of_mem he)

theorem mem_keys_insert : j ∈ keys (insert table k v) ↔ j ∈ keys table ∨ j = k := by
  induction table with
  | nil => simp [insert]
  | cons e rest ih =>
    obtain ⟨k', w⟩ := e
    by_cases hk : k' = k
    · subst hk
      simp only [insert, beq_self_eq_true, if_true, keys_cons, List.mem_cons]
      tauto
    · simp [insert, hk, ih, or_assoc]

theorem mem_insert (h : (j, w) ∈ insert table k v) : (j, w) ∈ table ∨ (j = k ∧ w = v) :=
  (puts_insert.mem (R := Eq) (fun _ => rfl) (fun _ _ heq => Prod.ext (beq_iff_eq.1 heq) rfl) h).imp_right
    Prod.mk.inj

theorem nodup_keys_insert (k : α) (v : β) (h : (keys table).Nodup) : (keys (insert table k v)).Nodup := by
  have hiff : ∀ table : List (α × β), (keys table).Nodup ↔ table.Pairwise fun a b => (a.1 == b.1) = false :=
    fun table => by simp [keys, List.Nodup, List.pairwise_map]
  rw [hiff] at h ⊢
  exact puts_insert.pairwise (x := (k, v)) (fun _ => id) (fun hsame hz => beq_iff_eq.1 hsame ▸ hz) h

@[simp] theorem lookup_insert_self (table : List (α × β)) (k : α) (v : β) :
    (insert table k v).lookup k = some v := by
  induction table with
  | nil => simp [insert]
  | cons e rest ih =>
    obtain ⟨k', w⟩ := e
    by_cases hk : k' = k
    · simp [insert, hk]
    · have hb : (k == k') = false := by simpa using Ne.symm hk
      simp [insert, hk, List.lookup_cons, hb, ih]

theorem lookup_insert_of_ne (v : β) (h : j ≠ k) : (insert table k v).lookup j = table.lookup j := by
  induction table with
  | nil =>
    have hb : (j == k) = false := by simpa using h
    simp [insert, List.lookup_cons, hb]
  | cons e rest ih =>
    obtain ⟨k', w⟩ := e
    by_cases hk : k' = k
    · subst hk
      have hb : (j == k') = false := by simpa using h
      simp [insert, List.lookup_cons, hb]
    · simp [insert, hk, List.lookup_cons, ih]

theorem keys_insert_of_mem (v : β) (h : k ∈ keys table) : keys (insert table k v) = keys table := by
  induction table with
  | nil => cases h
  | cons e rest ih =>
    obtain ⟨k', w⟩ := e
    by_cases hk : k' = k
    · simp [insert, hk]
    · simp only [keys_cons, List.mem_cons] at h
      simp [insert, hk, ih (h.resolve_left (Ne.symm hk))]

/-! ### Setting keys one after the other -/

/-- Items under their keys, each in the place of the first one that has its key. -/
def collect (key : β → α) (items : List β) : List (α × β) :=
  items.foldl (fun table x => insert table (key x) x) []

/-- An item that no later one shares its key with. -/
def IsLast (key : β → α) (items : List β) (x : β) : Prop :=
  ∃ before after, items = before ++ x :: after ∧ ∀ y ∈ after, key y ≠ key x

variable {key : β → α}

omit [LawfulBEq α] in
theorem collect_concat (items : List β) (x : β) :
    collect key (items ++ [x]) = insert (collect key items) (key x) x := by
  simp [collect]

theorem mem_keys_collect : k ∈ keys (collect key items) ↔ k ∈ items.map key := by
  induction items using List.reverseRecOn with
  | nil => simp [collect]
  | append_singleton items x ih => simp [collect_concat, mem_keys_insert, ih]

theorem nodup_keys_collect (key : β → α) (items : List β) : (keys (collect key items)).Nodup := by
  induction items using List.reverseRecOn with
  | nil => exact List.nodup_nil
  | append_singleton items x ih =>
    rw [collect_concat]
    exact nodup_keys_insert _ _ ih

/-- What is found under a key is the last item that has it. -/
theorem lookup_collect (key : β → α) (items : List β) (k : α) :
    (collect key items).lookup k = items.reverse.find? fun x => key x == k := by
  induction items using List.reverseRecOn with
  | nil => rfl
  | append_singleton items x ih =>
    rw [collect_concat, List.reverse_concat, List.find?_cons]
    by_cases hk : key x = k
    · rw [hk, lookup_insert_self, beq_self_eq_true]
    · rw [lookup_insert_of_ne x (Ne.symm hk), ih, beq_eq_false_iff_ne.2 hk]

/-- Keys come in the order of their first items. -/
theorem keys_collect_ordered (key : β → α) (items : List β) :
    (keys (collect key items)).Pairwise fun j k =>
      (items.map key).idxOf j < (items.map key).idxOf k := by
  induction items using List.reverseRecOn with
  | nil => exact .nil
  | append_singleton items x ih =>
    have hearlier : (keys (collect key items)).Pairwise fun j k =>
        ((items ++ [x]).map key).idxOf j < ((items ++ [x]).map key).idxOf k := by
      refine ih.imp_of_mem fun {j k} hj hk hlt => ?_
      rw [List.map_append, List.idxOf_append, if_pos (mem_keys_collect.1 hj), List.idxOf_append,
        if_pos (mem_keys_collect.1 hk)]
      exact hlt
    rw [collect_concat]
    by_cases hx : key x ∈ keys (collect key items)
    · rw [keys_insert_of_mem x hx]
      exact hearlier
    · rw [insert_of_not_mem x hx, keys_append]
      refine List.pairwise_append.2 ⟨hearlier, List.pairwise_singleton _ _, fun j hj k hk => ?_⟩
      obtain rfl : k = key x := List.mem_singleton.1 hk
      have hnew : key x ∉ items.map key := fun h => hx (mem_keys_collect.2 h)
      rw [List.map_append, List.idxOf_append, if_pos (mem_keys_collect.1 hj), List.idxOf_append,
        if_neg hnew]
      have hlt := List.idxOf_lt_length_of_mem (mem_keys_collect.1 hj)
      omega

theorem key_of_mem_collect (h : (k, x) ∈ collect key items) : key x = k := by
  have hfound := lookup_of_mem (nodup_keys_collect key items) h
  rw [lookup_collect] at hfound
  simpa using List.find?_some hfound

theorem map_key_collect (key : β → α) (items : List β) :
    ((collect key items).map Prod.snd).map key = keys (collect key items) := by
  rw [List.map_map]
  refine List.map_congr_left fun e he => ?_
  exact key_of_mem_collect (k := e.1) (x := e.2) he

theorem mem_collect_iff : x ∈ (collect key items).map Prod.snd ↔ IsLast key items x := by
  have hlast : (key x, x) ∈ collect key items ↔ IsLast key items x := by
    have hlookup : (key x, x) ∈ collect key items ↔ (collect key items).lookup (key x) = some x :=
      ⟨lookup_of_mem (nodup_keys_collect key items), mem_of_lookup⟩
    rw [hlookup, lookup_collect, List.find?_eq_some_iff_append]
    constructor
    · rintro ⟨-, after, before, heq, hafter⟩
      refine ⟨before.reverse, after.reverse, ?_, fun y hy => ?_⟩
      · rw [← List.reverse_reverse items, heq]
        simp
      · simpa using hafter y (List.mem_reverse.1 hy)
    · rintro ⟨before, after, rfl, hafter⟩
      refine ⟨beq_self_eq_true _, after.reverse, before.reverse, by simp, fun y hy => ?_⟩
      simpa using hafter y (List.mem_reverse.1 hy)
  rw [← hlast, List.mem_map]
  constructor
  · rintro ⟨⟨k, y⟩, he, rfl⟩
    rwa [key_of_mem_collect he]
  · exact fun h => ⟨_, h, rfl⟩

omit [BEq α] [LawfulBEq α] in
/-- The last items of two lists, one behind the other. -/
theorem isLast_append {xs ys : List β} : IsLast key (xs ++ ys) x ↔
    IsLast key ys x ∨ IsLast key xs x ∧ ∀ y ∈ ys, key y ≠ key x := by
  constructor
  · rintro ⟨before, after, heq, hafter⟩
    rcases List.append_eq_append_iff.1 heq with ⟨middle, rfl, rfl⟩ | ⟨middle, rfl, hmiddle⟩
    · exact .inl ⟨middle, after, rfl, hafter⟩
    · cases middle with
      | nil => exact .inl ⟨[], after, hmiddle.symm, hafter⟩
      | cons z middle =>
        obtain ⟨rfl, rfl⟩ := List.cons.inj hmiddle
        obtain ⟨hmiddle, hys⟩ := List.forall_mem_append.1 hafter
        exact .inr ⟨⟨before, middle, rfl, hmiddle⟩, hys⟩
  · rintro (⟨before, after, rfl, hafter⟩ | ⟨⟨before, after, rfl, hafter⟩, hys⟩)
    · exact ⟨xs ++ before, after, by simp, hafter⟩
    · exact ⟨before, after ++ ys, by simp, List.forall_mem_append.2 ⟨hafter, hys⟩⟩

/-! ### Setting a key that is not there yet -/

omit [LawfulBEq α] in
theorem mem_insertNew (h : (j, w) ∈ insertNew table k v) : (j, w) ∈ table ∨ (j = k ∧ w = v) := by
  unfold insertNew at h
  split at h
  · exact .inl h
  · simpa using h

omit [LawfulBEq α] in
/-- A key that is there keeps its value. -/
theorem lookup_insertNew_of_isSome (h : table.lookup j = some w) :
    (insertNew table k v).lookup j = some w := by
  unfold insertNew
  split
  · exact h
  · rw [List.lookup_append, h]
    rfl

/-! ### Dropping repeated items -/

theorem mem_foldl_distinct {acc : List α} {x : α} :
    x ∈ xs.foldl (fun acc x => if acc.contains x then acc else acc ++ [x]) acc ↔
      x ∈ acc ∨ x ∈ xs := by
  induction xs generalizing acc with
  | nil => simp
  | cons y ys ih =>
    rw [List.foldl_cons, ih]
    by_cases hy : y ∈ acc
    · have hc : acc.contains y = true := by simpa using hy
      rw [if_pos hc, List.mem_cons]
      constructor
      · tauto
      · rintro (h | rfl | h) <;> tauto
    · have hc : ¬ acc.contains y = true := by simpa using hy
      rw [if_neg hc, List.mem_append, List.mem_singleton, List.mem_cons]
      tauto

@[simp] theorem mem_distinct {x : α} : x ∈ distinct xs ↔ x ∈ xs := by
  rw [distinct, mem_foldl_distinct]
  simp

theorem nodup_foldl_distinct {acc : List α} (h : acc.Nodup) :
    (xs.foldl (fun acc x => if acc.contains x then acc else acc ++ [x]) acc).Nodup := by
  induction xs generalizing acc with
  | nil => exact h
  | cons y ys ih =>
    rw [List.foldl_cons]
    apply ih
    split
    · exact h
    · next hc =>
      have hy : y ∉ acc := by simpa using hc
      refine List.nodup_append.2 ⟨h, by simp, fun a ha b hb heq => hy ?_⟩
      rwa [← List.mem_singleton.1 hb, ← heq]

theorem nodup_distinct (xs : List α) : (distinct xs).Nodup := nodup_foldl_distinct List.nodup_nil

theorem distinct_of_nodup (h : xs.Nodup) : distinct xs = xs := by
  suffices hfold : ∀ acc : List α, (acc ++ xs).Nodup →
      xs.foldl (fun acc x => if acc.contains x then acc else acc ++ [x]) acc = acc ++ xs from
    hfold [] h
  clear h
  induction xs with
  | nil => simp
  | cons x rest ih =>
    intro acc hacc
    have hnew : acc.contains x = false := by
      rw [← Bool.not_eq_true, List.contains_iff_mem]
      exact fun hx => (List.nodup_append.1 hacc).2.2 x hx x List.mem_cons_self rfl
    rw [List.append_cons] at hacc
    rw [List.foldl_cons, hnew, if_neg Bool.false_ne_true, ih _ hacc, ← List.append_cons]

end OpenApi.Assoc
