import Mathlib.Logic.Basic
import OpenApi.Text.Utf8

/-!
Octets that were written are read back. Every bound that reading checks holds of the octets of a
character.
-/
namespace OpenApi.Utf8

theorem toNat_valid (c : Char) :
    c.toNat < 0xd800 ∨ (0xdfff < c.toNat ∧ c.toNat < 0x110000) := c.valid

theorem isTail_iff {b : Nat} : isTail b = true ↔ 0x80 ≤ b ∧ b ≤ 0xbf := by
  simp [isTail]

theorem secondOfThree_octet {n : Nat} (hlow : 0x800 ≤ n) (hhigh : n < 0x10000)
    (hvalid : n < 0xd800 ∨ 0xdfff < n) :
    secondOfThree (0xe0 + n / 0x1000) (0x80 + n / 0x40 % 0x40) = true := by
  unfold secondOfThree
  split
  · simp only [Bool.and_eq_true, decide_eq_true_eq]
    omega
  · split
    · simp only [Bool.and_eq_true, decide_eq_true_eq]
      omega
    · rw [isTail_iff]
      omega

theorem secondOfFour_octet {n : Nat} (hlow : 0x10000 ≤ n) (hhigh : n < 0x110000) :
    secondOfFour (0xf0 + n / 0x40000) (0x80 + n / 0x1000 % 0x40) = true := by
  unfold secondOfFour
  split
  · simp only [Bool.and_eq_true, decide_eq_true_eq]
    omega
  · split
    · simp only [Bool.and_eq_true, decide_eq_true_eq]
      omega
    · rw [isTail_iff]
      omega

theorem scan_octets (c : Char) (rest : List Nat) :
    scan (octets c ++ rest) = some c :: scan rest := by
  have hvalid := toNat_valid c
  have hc : ∀ n, n = c.toNat → Char.ofNat n = c := by
    rintro n rfl
    exact Char.ofNat_toNat c
  unfold octets
  dsimp only
  generalize hn : c.toNat = n at hvalid hc ⊢
  by_cases h1 : n < 0x80
  · rw [if_pos h1, List.singleton_append, scan.eq_def]
    simp [h1, hc]
  · rw [if_neg h1]
    by_cases h2 : n < 0x800
    · rw [if_pos h2]
      have ha : ¬ 0xc0 + n / 0x40 < 0x80 := by omega
      have hopen : 0xc2 ≤ 0xc0 + n / 0x40 ∧ 0xc0 + n / 0x40 ≤ 0xdf := by omega
      have hb : isTail (0x80 + n % 0x40) = true := isTail_iff.2 (by omega)
      have hval : Char.ofNat ((0xc0 + n / 0x40 - 0xc0) * 0x40 + (0x80 + n % 0x40 - 0x80)) = c :=
        hc _ (by omega)
      rw [List.cons_append, List.singleton_append, scan.eq_def]
      simp only [ha, hopen, hb, hval, if_true, if_false, decide_true, Bool.and_true]
    · rw [if_neg h2]
      by_cases h3 : n < 0x10000
      · rw [if_pos h3]
        have ha : ¬ 0xe0 + n / 0x1000 < 0x80 := by omega
        have hopen : ¬ 0xe0 + n / 0x1000 ≤ 0xdf := by omega
        have hopen' : 0xe0 ≤ 0xe0 + n / 0x1000 ∧ 0xe0 + n / 0x1000 ≤ 0xef := by omega
        have hb := secondOfThree_octet (Nat.le_of_not_lt h2) h3 (by omega)
        have hd : isTail (0x80 + n % 0x40) = true := isTail_iff.2 (by omega)
        have hval : Char.ofNat ((0xe0 + n / 0x1000 - 0xe0) * 0x1000
            + (0x80 + n / 0x40 % 0x40 - 0x80) * 0x40 + (0x80 + n % 0x40 - 0x80)) = c :=
          hc _ (by omega)
        simp only [List.cons_append, List.nil_append]
        rw [scan.eq_def]
        simp only [ha, hopen, hopen', hb, hd, hval, if_true, if_false, decide_true, decide_false,
          Bool.and_true, Bool.and_false, Bool.false_eq_true]
      · rw [if_neg h3]
        have ha : ¬ 0xf0 + n / 0x40000 < 0x80 := by omega
        have hopen : ¬ 0xf0 + n / 0x40000 ≤ 0xdf := by omega
        have hopen' : ¬ 0xf0 + n / 0x40000 ≤ 0xef := by omega
        have hopen'' : 0xf0 ≤ 0xf0 + n / 0x40000 ∧ 0xf0 + n / 0x40000 ≤ 0xf4 := by omega
        have hb := secondOfFour_octet (Nat.le_of_not_lt h3) (by omega)
        have hd : isTail (0x80 + n / 0x40 % 0x40) = true := isTail_iff.2 (by omega)
        have he : isTail (0x80 + n % 0x40) = true := isTail_iff.2 (by omega)
        have hval : Char.ofNat ((0xf0 + n / 0x40000 - 0xf0) * 0x40000
            + (0x80 + n / 0x1000 % 0x40 - 0x80) * 0x1000 + (0x80 + n / 0x40 % 0x40 - 0x80) * 0x40
            + (0x80 + n % 0x40 - 0x80)) = c := hc _ (by omega)
        simp only [List.cons_append, List.nil_append]
        rw [scan.eq_def]
        simp only [ha, hopen, hopen', hopen'', hb, hd, he, hval, if_true, if_false, decide_true,
          decide_false, Bool.and_true, Bool.and_false, Bool.false_eq_true]

theorem scan_flatMap_octets (cs : List Char) : scan (cs.flatMap octets) = cs.map some := by
  induction cs with
  | nil => rw [List.flatMap_nil, List.map_nil, scan]
  | cons c cs ih => rw [List.flatMap_cons, scan_octets, ih, List.map_cons]

theorem collect?_map_some (cs : List Char) : collect? (cs.map some) = some cs := by
  induction cs with
  | nil => rfl
  | cons c cs ih => rw [List.map_cons, collect?, ih, Option.map_some]

end OpenApi.Utf8
