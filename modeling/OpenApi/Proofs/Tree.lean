import OpenApi.Proofs.Value

/-!
The values that stand inside a value. There are as many of them as the size of the value says, and each
is no larger than what it stands in.
-/
namespace OpenApi
namespace Value

mutual

/-- A value and all that stands inside it. -/
def subvalues : Value → List Value
  | .scalar s => [.scalar s]
  | .list items => .list items :: itemSubvalues items
  | .map entries => .map entries :: entrySubvalues entries

def itemSubvalues : List Value → List Value
  | [] => []
  | x :: xs => x.subvalues ++ itemSubvalues xs

def entrySubvalues : List (Scalar × Value) → List Value
  | [] => []
  | (_, v) :: rest => v.subvalues ++ entrySubvalues rest

end

@[simp] theorem mem_subvalues_self (v : Value) : v ∈ v.subvalues := by
  cases v <;> simp [subvalues]

theorem mem_itemSubvalues {items : List Value} {w : Value} :
    w ∈ itemSubvalues items ↔ ∃ x ∈ items, w ∈ x.subvalues := by
  induction items with
  | nil => simp [itemSubvalues]
  | cons x xs ih => simp [itemSubvalues, ih]

theorem mem_entrySubvalues {entries : Entries} {w : Value} :
    w ∈ entrySubvalues entries ↔ ∃ e ∈ entries, w ∈ e.2.subvalues := by
  induction entries with
  | nil => simp [entrySubvalues]
  | cons e rest ih => simp [entrySubvalues, ih]

mutual

theorem length_subvalues : (v : Value) → v.subvalues.length = v.size
  | .scalar _ => rfl
  | .list items => by simp [subvalues, size, length_itemSubvalues items]
  | .map entries => by simp [subvalues, size, length_entrySubvalues entries]

theorem length_itemSubvalues : (items : List Value) → (itemSubvalues items).length = sizeItems items
  | [] => rfl
  | x :: xs => by simp [itemSubvalues, sizeItems, length_subvalues x, length_itemSubvalues xs]

theorem length_entrySubvalues :
    (entries : List (Scalar × Value)) → (entrySubvalues entries).length = sizeEntries entries
  | [] => rfl
  | (_, v) :: rest => by
    simp [entrySubvalues, sizeEntries, length_subvalues v, length_entrySubvalues rest]

end

mutual

/-- What stands inside a part stands inside the whole, in the same order. -/
theorem sublist_of_mem : (u : Value) → ∀ {v : Value}, v ∈ u.subvalues →
    v.subvalues.Sublist u.subvalues
  | .scalar _, v, hv => by
    rw [subvalues, List.mem_singleton] at hv
    exact hv ▸ .refl _
  | .list items, v, hv => by
    rcases List.mem_cons.1 hv with rfl | hv
    · exact .refl _
    · exact (itemSublist_of_mem items hv).cons _
  | .map entries, v, hv => by
    rcases List.mem_cons.1 hv with rfl | hv
    · exact .refl _
    · exact (entrySublist_of_mem entries hv).cons _

theorem itemSublist_of_mem : (items : List Value) → ∀ {v : Value}, v ∈ itemSubvalues items →
    v.subvalues.Sublist (itemSubvalues items)
  | [], _, hv => by cases hv
  | x :: xs, v, hv => by
    rcases List.mem_append.1 hv with hv | hv
    · exact (sublist_of_mem x hv).trans (List.sublist_append_left ..)
    · exact (itemSublist_of_mem xs hv).trans (List.sublist_append_right ..)

theorem entrySublist_of_mem : (entries : List (Scalar × Value)) → ∀ {v : Value},
    v ∈ entrySubvalues entries → v.subvalues.Sublist (entrySubvalues entries)
  | [], _, hv => by cases hv
  | (_, x) :: rest, v, hv => by
    rcases List.mem_append.1 hv with hv | hv
    · exact (sublist_of_mem x hv).trans (List.sublist_append_left ..)
    · exact (entrySublist_of_mem rest hv).trans (List.sublist_append_right ..)

end

theorem subvalues_trans {u v w : Value} (hv : v ∈ u.subvalues) (hw : w ∈ v.subvalues) :
    w ∈ u.subvalues :=
  (sublist_of_mem u hv).subset hw

theorem size_le_of_mem {u v : Value} (h : v ∈ u.subvalues) : v.size ≤ u.size := by
  have hlength := (sublist_of_mem u h).length_le
  rwa [length_subvalues, length_subvalues] at hlength

theorem size_le_of_mem_entries {entries : Entries} {v : Value} (h : v ∈ entrySubvalues entries) :
    v.size ≤ sizeEntries entries := by
  have hlength := (entrySublist_of_mem entries h).length_le
  rwa [length_subvalues, length_entrySubvalues] at hlength

theorem mem_subvalues_of_item {items : List Value} {v : Value} (h : v ∈ items) :
    v ∈ (Value.list items).subvalues :=
  List.mem_cons_of_mem _ (mem_itemSubvalues.2 ⟨v, h, mem_subvalues_self v⟩)

theorem mem_subvalues_of_entry {entries : Entries} {e : Scalar × Value} (h : e ∈ entries) :
    e.2 ∈ (Value.map entries).subvalues :=
  List.mem_cons_of_mem _ (mem_entrySubvalues.2 ⟨e, h, mem_subvalues_self e.2⟩)

theorem size_lt_of_item {items : List Value} {v : Value} (h : v ∈ items) :
    v.size < (Value.list items).size := by
  have hlength := (itemSublist_of_mem items (mem_itemSubvalues.2 ⟨v, h, mem_subvalues_self v⟩)).length_le
  rw [length_subvalues, length_itemSubvalues] at hlength
  rw [size]
  omega

theorem size_lt_of_entry {entries : Entries} {e : Scalar × Value} (h : e ∈ entries) :
    e.2.size < (Value.map entries).size := by
  have hle := size_le_of_mem_entries (mem_entrySubvalues.2 ⟨e, h, mem_subvalues_self e.2⟩)
  rw [size]
  omega

theorem size_pos (v : Value) : 0 < v.size := by
  cases v <;> simp [size]

theorem length_le_sizeItems (items : List Value) : items.length ≤ sizeItems items := by
  induction items with
  | nil => exact Nat.zero_le _
  | cons x rest ih =>
    have hpos := x.size_pos
    rw [List.length_cons, sizeItems]
    omega

end Value

namespace Entries
open Value (sizeEntries)

theorem find?_eq (entries : Entries) (key : Scalar) :
    entries.find? key = (List.find? (·.1.same key) entries).map Prod.snd := by
  induction entries with
  | nil => rfl
  | cons e rest ih =>
    rw [find?, List.find?_cons, ih]
    cases e.1.same key <;> rfl

theorem mem_of_find? {entries : Entries} {key : Scalar} {v : Value}
    (h : entries.find? key = some v) : ∃ k, (k, v) ∈ entries ∧ k.same key = true := by
  rw [find?_eq] at h
  obtain ⟨e, he, rfl⟩ := Option.map_eq_some_iff.1 h
  have hsame := List.find?_some he
  exact ⟨e.1, List.mem_of_find?_eq_some he, hsame⟩

theorem find?_append (s t : Entries) (key : Scalar) :
    find? (s ++ t) key = (s.find? key).or (t.find? key) := by
  rw [find?_eq, find?_eq, find?_eq, List.find?_append, Option.map_or]

theorem sizeEntries_append (s t : Entries) :
    sizeEntries (s ++ t) = sizeEntries s + sizeEntries t := by
  induction s with
  | nil => simp [sizeEntries]
  | cons e rest ih =>
    rw [List.cons_append, sizeEntries, sizeEntries, ih]
    omega

theorem sizeEntries_filter_le (entries : Entries) (p : Scalar × Value → Bool) :
    sizeEntries (entries.filter p) ≤ sizeEntries entries := by
  induction entries with
  | nil => exact Nat.le_refl _
  | cons e rest ih =>
    rw [List.filter_cons]
    split
    · rw [sizeEntries, sizeEntries]
      omega
    · rw [sizeEntries]
      omega

/-- Dropping a key drops at least the value that is found under it. -/
theorem sizeEntries_without_le {entries : Entries} {keys : List String} {key : String} {v : Value}
    (h : entries.get? key = some v) (hkey : key ∈ keys) :
    sizeEntries (entries.without keys) + v.size ≤ sizeEntries entries := by
  induction entries with
  | nil => cases h
  | cons e rest ih =>
    obtain ⟨k, w⟩ := e
    have hrest : sizeEntries (without rest keys) ≤ sizeEntries rest := sizeEntries_filter_le rest _
    rw [get?, find?] at h
    rw [without, List.filter_cons, ← without, sizeEntries]
    dsimp only at h ⊢
    split at h
    · next hsame =>
      obtain rfl := Option.some.inj h
      have hany : (keys.any fun key => k.same (.str key)) = true :=
        List.any_eq_true.2 ⟨key, hkey, hsame⟩
      rw [if_neg (by simp only [hany, Bool.not_true, Bool.false_eq_true, not_false_eq_true])]
      omega
    · have hfound := ih h
      split
      · rw [sizeEntries]
        omega
      · omega

end Entries

theorem Value.item_str_ok {v x : Value} {key : String} (h : v.item (.str key) = .ok x) :
    ∃ entries, v = .map entries ∧ (.str key, x) ∈ entries := by
  unfold Value.item at h
  split at h
  · next entries k hkey =>
    cases hkey
    split at h
    · next found hfound =>
      cases h
      obtain ⟨k, hk, hsame⟩ := Entries.mem_of_find? hfound
      exact ⟨entries, rfl, Scalar.same_str_iff.1 hsame ▸ hk⟩
    · cases h
  · next hkey => cases hkey
  · next hkey => cases hkey
  · cases h

end OpenApi
