import OpenApi.Proofs.Assoc
import OpenApi.Schema.Location

/-!
Values as data of proofs. Sameness of scalars is an equivalence; equality is decidable, so that what a
document holds can be compared; a list has a text only if its items do; dropping keys leaves the values of
all others; and keys that differ make a mapping as they stand.
-/
namespace OpenApi

variable {entries : Entries}

theorem written_ok {text : Option String} {s : String} (h : written text = .ok s) :
    text = some s := by
  unfold written at h
  split at h
  · rw [Except.ok.inj h]
  · cases h

theorem Scalar.same_self (s : Scalar) : s.same s = true := by
  cases s with
  | null => rfl
  | bool b => exact beq_self_eq_true (Int.mul _ _)
  | int n => exact beq_self_eq_true (Int.mul _ _)
  | float x =>
    cases x with
    | nan => rfl
    | infinite negative => cases negative <;> rfl
    | finite negative mantissa exponent =>
      simp [same, magnitude?, Magnitude.ofDouble, Double.toRatio?, Magnitude.eq]
  | str t => exact beq_self_eq_true t
  | date d => exact beq_self_eq_true d

theorem Scalar.same_str_iff {s : Scalar} {t : String} : s.same (.str t) = true ↔ s = .str t := by
  cases s <;> simp [same, magnitude?]

theorem Scalar.str_same_iff {s : Scalar} {t : String} : (Scalar.str t).same s = true ↔ s = .str t := by
  cases s with
  | str u => exact beq_iff_eq.trans (by rw [str.injEq, eq_comm])
  | _ => exact ⟨nofun, nofun⟩

namespace Magnitude

theorem eq_symm {x y : Magnitude} (h : x.eq y = true) : y.eq x = true := by
  cases x with
  | ratio a b =>
    cases y with
    | ratio c d =>
      rw [Magnitude.eq, beq_iff_eq] at h ⊢
      exact h.symm
    | _ => exact h
  | _ => cases y <;> exact h

/-- Fractions are compared crosswise, so the middle one must have a denominator. -/
theorem eq_trans {x y z : Magnitude} (hy : ∀ n d, y = .ratio n d → 0 < d) (hxy : x.eq y = true)
    (hyz : y.eq z = true) : x.eq z = true := by
  cases y with
  | unordered => cases hyz
  | bottom =>
    cases x with
    | bottom => exact hyz
    | _ => cases hxy
  | top =>
    cases x with
    | top => exact hyz
    | _ => cases hxy
  | ratio n d =>
    cases x with
    | ratio a b =>
      cases z with
      | ratio e f =>
        have hd : (d : Int) ≠ 0 := by
          have := hy n d rfl
          omega
        rw [Magnitude.eq, beq_iff_eq] at hxy hyz ⊢
        apply Int.eq_of_mul_eq_mul_right hd
        calc a * f * d = a * d * f := Int.mul_right_comm a f d
          _ = n * b * f := by rw [hxy]
          _ = n * f * b := Int.mul_right_comm n b f
          _ = e * d * b := by rw [hyz]
          _ = e * b * d := Int.mul_right_comm e d b
      | _ => cases hyz
    | _ => cases hxy

end Magnitude

namespace Scalar

variable {a b : Scalar}

theorem denominator_pos {s : Scalar} {n : Int} {d : Nat} (h : s.magnitude? = some (.ratio n d)) :
    0 < d := by
  cases s with
  | bool b =>
    cases h
    exact Nat.one_pos
  | int m =>
    cases h
    exact Nat.one_pos
  | float x =>
    cases x with
    | finite negative mantissa exponent =>
      simp only [magnitude?, Magnitude.ofDouble, Double.toRatio?, Option.some.injEq,
        Magnitude.ratio.injEq] at h
      rw [← h.2]
      split
      · exact Nat.one_pos
      · exact Nat.pow_pos Nat.two_pos
    | infinite negative => cases negative <;> cases h
    | nan => cases h
  | _ => cases h

/-- Scalars that are the same are equal or stand at the same place on the number line. -/
theorem same_iff : a.same b = true ↔
    a = b ∨ ∃ x y, a.magnitude? = some x ∧ b.magnitude? = some y ∧ x.eq y = true := by
  constructor
  · intro h
    unfold same at h
    split at h
    · exact .inl (congrArg str (beq_iff_eq.1 h))
    · exact .inl rfl
    · exact .inl rfl
    · exact .inl (congrArg date (beq_iff_eq.1 h))
    · split at h
      · next x y hx hy => exact .inr ⟨x, y, hx, hy, h⟩
      · cases h
  · rintro (rfl | ⟨x, y, hx, hy, h⟩)
    · exact same_self a
    · unfold same
      split
      · cases hx
      · rfl
      · rfl
      · cases hx
      · rw [hx, hy]
        exact h

theorem same_symm (h : a.same b = true) : b.same a = true := by
  rw [same_iff] at h ⊢
  rcases h with rfl | ⟨x, y, hx, hy, h⟩
  · exact .inl rfl
  · exact .inr ⟨y, x, hy, hx, Magnitude.eq_symm h⟩

theorem same_trans {c : Scalar} (hab : a.same b = true) (hbc : b.same c = true) : a.same c = true := by
  rw [same_iff] at hab hbc ⊢
  rcases hab with rfl | ⟨x, y, hx, hy, hab⟩
  · exact hbc
  · rcases hbc with rfl | ⟨y', z, hy', hz, hbc⟩
    · exact .inr ⟨x, y, hx, hy, hab⟩
    · rw [hy] at hy'
      cases hy'
      refine .inr ⟨x, z, hx, hz, Magnitude.eq_trans ?_ hab hbc⟩
      rintro n d rfl
      exact denominator_pos hy

end Scalar
namespace Value

variable {v : Value}

mutual

def decEq : (v w : Value) → Decidable (v = w)
  | .scalar a, .scalar b => decidable_of_iff (a = b) (by simp)
  | .list xs, .list ys =>
    match decEqItems xs ys with
    | isTrue h => isTrue (by rw [h])
    | isFalse h => isFalse fun heq => h (Value.list.inj heq)
  | .map xs, .map ys =>
    match decEqEntries xs ys with
    | isTrue h => isTrue (by rw [h])
    | isFalse h => isFalse fun heq => h (Value.map.inj heq)
  | .scalar _, .list _ | .scalar _, .map _ | .list _, .scalar _ | .list _, .map _
  | .map _, .scalar _ | .map _, .list _ => isFalse nofun

def decEqItems : (xs ys : List Value) → Decidable (xs = ys)
  | [], [] => isTrue rfl
  | [], _ :: _ | _ :: _, [] => isFalse nofun
  | x :: xs, y :: ys =>
    match decEq x y, decEqItems xs ys with
    | isTrue hx, isTrue hxs => isTrue (by rw [hx, hxs])
    | isFalse hx, _ => isFalse fun heq => hx (List.cons.inj heq).1
    | _, isFalse hxs => isFalse fun heq => hxs (List.cons.inj heq).2

def decEqEntries : (xs ys : List (Scalar × Value)) → Decidable (xs = ys)
  | [], [] => isTrue rfl
  | [], _ :: _ | _ :: _, [] => isFalse nofun
  | (k, v) :: xs, (l, w) :: ys =>
    match decEq v w, decEqEntries xs ys with
    | isTrue hv, isTrue hxs => decidable_of_iff (k = l) (by simp [hv, hxs])
    | isFalse hv, _ => isFalse fun heq => hv (Prod.mk.inj (List.cons.inj heq).1).2
    | _, isFalse hxs => isFalse fun heq => hxs (List.cons.inj heq).2

end

instance : DecidableEq Value := decEq

theorem entries_ok {entries : Entries} (h : v.entries = .ok entries) : v = .map entries := by
  unfold Value.entries at h
  split at h
  · rw [Except.ok.inj h]
  · cases h

theorem orEmpty_cases (v : Value) : v.orEmpty = v ∨ v.orEmpty = .map [] := by
  unfold orEmpty
  split
  · exact .inl rfl
  · exact .inr rfl

theorem orEmpty_map (entries : Entries) : (Value.map entries).orEmpty = .map entries := by
  cases entries with
  | nil => rfl
  | cons e rest => rfl

theorem innerItems?_of_mem {items : List Value} {texts : List String}
    (h : innerItems? items = some texts) (hv : v ∈ items) : v.inner?.isSome = true := by
  induction items generalizing texts with
  | nil => cases hv
  | cons w rest ih =>
    rw [innerItems?] at h
    obtain ⟨first, hfirst, h⟩ := Option.bind_eq_some_iff.1 h
    obtain ⟨others, hothers, -⟩ := Option.bind_eq_some_iff.1 h
    rcases List.mem_cons.1 hv with rfl | hv
    · rw [hfirst]
      rfl
    · exact ih hothers hv

theorem inner?_of_mem {items : List Value} (h : (Value.list items).inner?.isSome = true)
    (hv : v ∈ items) : v.inner?.isSome = true := by
  obtain ⟨text, htext⟩ := Option.isSome_iff_exists.1 h
  rw [inner?] at htext
  obtain ⟨texts, htexts, -⟩ := Option.bind_eq_some_iff.1 htext
  exact innerItems?_of_mem htexts hv

end Value

theorem Entries.get?_without {keys : List String} {key : String} (h : key ∉ keys) :
    (entries.without keys).get? key = entries.get? key := by
  unfold get? without
  induction entries with
  | nil => rfl
  | cons e rest ih =>
    obtain ⟨k, v⟩ := e
    cases hk : k.same (.str key) with
    | true =>
      -- a key that is the same as a text is that text
      obtain rfl := Scalar.same_str_iff.1 hk
      have hkeep : (!keys.any fun other => (Scalar.str key).same (.str other)) = true := by
        rw [Bool.not_eq_true', List.any_eq_false]
        intro other hother hsame
        exact h (Scalar.str.inj (Scalar.same_str_iff.1 hsame) ▸ hother)
      rw [List.filter_cons, if_pos hkeep, find?, find?, if_pos hk, if_pos hk]
    | false =>
      have hskip : ∀ others, find? ((k, v) :: others) (.str key) = find? others (.str key) := by
        intro others
        rw [find?, if_neg (by simp [hk])]
      rw [hskip, ← ih, List.filter_cons]
      by_cases hkeep : (!keys.any fun other => k.same (.str other)) = true
      · rw [if_pos hkeep]
        exact hskip _
      · rw [if_neg hkeep]

deriving instance DecidableEq for SchemaPlace

theorem Entries.get?_of_mem {s : String} {x : Value} (hnodup : (entries.map Prod.fst).Nodup)
    (h : (.str s, x) ∈ entries) :
    entries.get? s = some x := by
  induction entries with
  | nil => cases h
  | cons e rest ih =>
    obtain ⟨hnew, hnodup⟩ := List.nodup_cons.1 hnodup
    rw [get?, find?]
    rcases List.mem_cons.1 h with rfl | h
    · rw [if_pos (Scalar.same_self _)]
    · rw [if_neg]
      · exact ih hnodup h
      · intro hsame
        exact hnew (Scalar.same_str_iff.1 hsame ▸ List.mem_map_of_mem h)

theorem Entries.puts_insert : Assoc.Puts (fun a b : Scalar × Value => a.1.same b.1)
    (fun a b => (a.1, b.2)) fun entries e => Entries.insert entries e.1 e.2 :=
  ⟨fun _ => rfl, fun _ _ _ => rfl⟩

/-- What a mapping of pairs holds under a key is the value of a pair of that key. -/
theorem Entries.mem_ofList {pairs : List (Scalar × Value)} {e : Scalar × Value}
    (h : e ∈ Entries.ofList pairs) : ∃ p ∈ pairs, e.1.same p.1 = true ∧ e.2 = p.2 :=
  (puts_insert.mem_foldl (R := fun e p => e.1.same p.1 = true ∧ e.2 = p.2)
    (fun p => ⟨p.1.same_self, rfl⟩) (fun _ _ hsame => ⟨hsame, rfl⟩) h).resolve_left List.not_mem_nil

/-- Texts as keys, each once, make a mapping as they stand. -/
theorem Entries.ofList_of_nodup {entries : List (Scalar × Value)}
    (htext : ∀ e ∈ entries, ∃ key, e.1 = .str key) (hkeys : (entries.map Prod.fst).Nodup) :
    Entries.ofList entries = entries := by
  rw [List.Nodup, List.pairwise_map] at hkeys
  refine puts_insert.foldl_eq_append [] (hkeys.imp_of_mem fun {a b} ha hb hne => ?_)
  obtain ⟨s, hs⟩ := htext a ha
  obtain ⟨t, ht⟩ := htext b hb
  rw [hs, ht] at hne ⊢
  simpa [Scalar.same] using hne

end OpenApi
