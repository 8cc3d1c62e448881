import Mathlib.Data.List.Nodup
import Mathlib.Data.List.ProdSigma
import Mathlib.Data.List.Perm.Subperm
import OpenApi.Name.Table
import OpenApi.Proofs.Text.Case

/-!
The names that are tried for an owner. Up to case, a candidate tells its number once it is known whether
it is the base, numbered, or numbered and reserved. So no more than three numbers share a candidate, and
the search for a free one does not come to its bound.
-/
namespace OpenApi.NameTable

variable (naming : Naming) (base : String)

/-- What is put behind the number of a candidate. -/
def ending (n : Nat) : String :=
  if naming.isReserved (base ++ naming.separator ++ Nat.repr n) then naming.suffix else ""

theorem candidate_numbered {n : Nat} (h : 1 < n) :
    candidate naming base n = base ++ naming.separator ++ Nat.repr n ++ ending naming base n := by
  rw [candidate, if_neg (by omega), Naming.unreserve, ending]
  split
  · rfl
  · rw [String.append_empty]

theorem foldCase_numbered (s : String) (n : Nat) (t : String) :
    foldCase naming (s ++ Nat.repr n ++ t) =
      foldCase naming s ++ Nat.repr n ++ foldCase naming t := by
  unfold foldCase
  split
  · exact Text.lower_numbered s n t
  · rfl

/-- How a candidate is made: none for the base, else whether it ends as reserved names do. -/
def form (n : Nat) : Option Bool :=
  if n ≤ 1 then none else some (naming.isReserved (base ++ naming.separator ++ Nat.repr n))

theorem repr_inj {m n : Nat} (h : Nat.repr m = Nat.repr n) : m = n := by
  have hvalue := congrArg (fun s => Nat.ofDigitChars 10 s.toList 0) h
  simpa only [Nat.toList_repr, Nat.ofDigitChars_ten_toDigits] using hvalue

/-- Candidates that are made alike and read alike have the same number. -/
theorem candidate_inj {m n : Nat} (hm : 0 < m) (hn : 0 < n)
    (hform : form naming base m = form naming base n)
    (h : foldCase naming (candidate naming base m) = foldCase naming (candidate naming base n)) :
    m = n := by
  unfold form at hform
  split at hform <;> split at hform
  · omega
  · cases hform
  · cases hform
  · have hending : ending naming base m = ending naming base n := by
      unfold ending
      rw [Option.some.inj hform]
    rw [candidate_numbered naming base (by omega), candidate_numbered naming base (by omega),
      foldCase_numbered, foldCase_numbered, hending] at h
    exact repr_inj ((String.append_right_inj _).1 ((String.append_left_inj _).1 h))

/-- The numbers that are tried are more than three for each name that is taken. -/
theorem exists_free (taken : List String) :
    ∃ n, ((List.range (3 * taken.length + 3)).map (· + 1)).find?
      (fun n => !taken.contains (foldCase naming (candidate naming base n))) = some n := by
  rw [← Option.isSome_iff_exists, List.find?_isSome]
  by_contra! hnone
  let numbers := (List.range (3 * taken.length + 3)).map (· + 1)
  let attempt (n : Nat) : Option Bool × String :=
    (form naming base n, foldCase naming (candidate naming base n))
  have hpos : ∀ n ∈ numbers, 0 < n := by
    intro n hn
    obtain ⟨i, -, rfl⟩ := List.mem_map.1 hn
    exact Nat.succ_pos i
  have hnodup : (numbers.map attempt).Nodup := by
    refine List.Nodup.map_on (fun m hm n hn heq => ?_) ?_
    · obtain ⟨hform, hfold⟩ := Prod.mk.inj heq
      exact candidate_inj naming base (hpos m hm) (hpos n hn) hform hfold
    · exact List.Nodup.map (fun _ _ => Nat.succ.inj) List.nodup_range
  -- every attempt has one of three forms, and comes to a name that is taken
  have hsub : numbers.map attempt ⊆ [none, some false, some true] ×ˢ taken := by
    intro a ha
    obtain ⟨n, hn, rfl⟩ := List.mem_map.1 ha
    refine List.mem_product.2 ⟨?_, by simpa using hnone n hn⟩
    cases form naming base n with
    | none => simp
    | some reserved => cases reserved <;> simp
  have hlength := (hnodup.subperm hsub).length_le
  simp only [numbers, List.length_map, List.length_range, List.length_product, List.length_cons,
    List.length_nil] at hlength
  omega

theorem firstFree_not_mem (taken : List String) :
    foldCase naming (candidate naming base (firstFree naming taken base)) ∉ taken := by
  obtain ⟨n, hn⟩ := exists_free naming base taken
  rw [firstFree, hn, Option.getD_some]
  simpa using List.find?_some hn

/-- The search starts at one and passes over taken candidates alone. -/
theorem firstFree_least (taken : List String) : 0 < firstFree naming taken base ∧
    ∀ m, 0 < m → m < firstFree naming taken base → foldCase naming (candidate naming base m) ∈ taken := by
  obtain ⟨n, hn⟩ := exists_free naming base taken
  rw [firstFree, hn, Option.getD_some]
  rw [List.find?_map, Option.map_eq_some_iff] at hn
  obtain ⟨i, hi, rfl⟩ := hn
  obtain ⟨-, -, hbefore⟩ := List.find?_range_eq_some.1 hi
  refine ⟨Nat.succ_pos i, fun m hm hlt => ?_⟩
  have hpassed := hbefore (m - 1) (by omega)
  rw [Function.comp_apply, Nat.sub_add_cancel hm] at hpassed
  simpa using hpassed

/-- The search as a loop: the candidates from the `n`-th on are tried, and the `m`-th is the first that is
free. -/
inductive Tries (naming : Naming) (taken : List String) (base : String) : Nat → Nat → Prop
  | free {n : Nat} (h : foldCase naming (candidate naming base n) ∉ taken) : Tries naming taken base n n
  | passed {n m : Nat} (h : foldCase naming (candidate naming base n) ∈ taken)
      (hrest : Tries naming taken base (n + 1) m) : Tries naming taken base n m

/-- The loop ends, and it ends where the search does. -/
theorem tries_firstFree (taken : List String) :
    Tries naming taken base 1 (firstFree naming taken base) := by
  obtain ⟨hpos, hleast⟩ := firstFree_least naming base taken
  have hfrom : ∀ k n, n + k = firstFree naming taken base → 0 < n →
      Tries naming taken base n (firstFree naming taken base) := by
    intro k
    induction k with
    | zero =>
      rintro n rfl -
      exact .free (firstFree_not_mem naming base taken)
    | succ k ih =>
      intro n hn hn'
      exact .passed (hleast n hn' (by omega)) (ih (n + 1) (by omega) (by omega))
  exact hfrom (firstFree naming taken base - 1) 1 (by omega) (by omega)

end OpenApi.NameTable
