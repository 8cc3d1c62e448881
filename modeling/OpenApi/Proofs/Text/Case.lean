import Mathlib.Tactic.SplitIfs
import OpenApi.Text.Case

/-!
Lower case around digits. A digit is no letter, and it is not passed over when the end of a word is
looked for, so the texts before and behind a number are put into lower case each on its own.
-/
namespace OpenApi.Text

theorem mem_digits_of_isDigit {c : Char} (h : c.isDigit = true) : c ∈ "0123456789".toList := by
  have hrange := h
  simp only [Char.isDigit, Bool.and_eq_true, decide_eq_true_eq, ge_iff_le,
    UInt32.le_iff_toNat_le] at hrange
  obtain ⟨hlow, hhigh⟩ : 48 ≤ c.toNat ∧ c.toNat ≤ 57 := hrange
  have hall : ∀ n ∈ List.range' 48 10, Char.ofNat n ∈ "0123456789".toList := by decide
  rw [← Char.ofNat_toNat c]
  exact hall c.toNat (List.mem_range'_1.2 ⟨hlow, by omega⟩)

/-- What a digit is to lower case: neither a letter nor a mark, and its own small form. -/
theorem lower_facts_of_isDigit {c : Char} (h : c.isDigit = true) :
    casedRanges.has c = false ∧ caseIgnorableRanges.has c = false ∧ lowerChar c = [c] ∧
      c.toNat ≠ 0x3a3 := by
  have hall : ("0123456789".toList.all fun c => decide (casedRanges.has c = false ∧
      caseIgnorableRanges.has c = false ∧ lowerChar c = [c] ∧ c.toNat ≠ 0x3a3)) = true := by
    decide +kernel
  exact of_decide_eq_true (List.all_eq_true.1 hall c (mem_digits_of_isDigit h))

theorem meetsLetter_append_digit {d : Char} (hd : d.isDigit = true) (cs rest : List Char) :
    meetsLetter (cs ++ d :: rest) = meetsLetter cs := by
  obtain ⟨hcased, hignorable, -, -⟩ := lower_facts_of_isDigit hd
  unfold meetsLetter
  induction cs with
  | nil => simp [hignorable, hcased]
  | cons c cs ih =>
    rw [List.cons_append]
    cases hc : caseIgnorableRanges.has c with
    | true => rw [List.dropWhile_cons_of_pos hc, List.dropWhile_cons_of_pos hc, ih]
    | false =>
      rw [List.dropWhile_cons_of_neg (by simp [hc]), List.dropWhile_cons_of_neg (by simp [hc])]

/-- What stands before a digit does not matter behind it. -/
theorem lowerList_behind_digit {d : Char} (hd : d.isDigit = true) (near far cs : List Char) :
    lowerList (near ++ d :: far) cs = lowerList near cs := by
  induction cs generalizing near with
  | nil => rfl
  | cons c cs ih =>
    rw [lowerList, lowerList, meetsLetter_append_digit hd, ← ih (c :: near), List.cons_append]

theorem lowerList_append_digit {d : Char} (hd : d.isDigit = true) (before cs rest : List Char) :
    lowerList before (cs ++ d :: rest) = lowerList before cs ++ d :: lowerList [] rest := by
  obtain ⟨-, -, hlower, hsigma⟩ := lower_facts_of_isDigit hd
  induction cs generalizing before with
  | nil =>
    have hrest : lowerList (d :: before) rest = lowerList [] rest :=
      lowerList_behind_digit hd [] before rest
    simp [lowerList, hsigma, hlower, hrest]
  | cons c cs ih =>
    rw [List.cons_append, lowerList, lowerList, meetsLetter_append_digit hd, ih, List.append_assoc]

theorem lowerList_digits {ds : List Char} (hds : ∀ d ∈ ds, d.isDigit = true) (rest : List Char) :
    lowerList [] (ds ++ rest) = ds ++ lowerList [] rest := by
  induction ds with
  | nil => rfl
  | cons d ds ih =>
    obtain ⟨hd, hds⟩ := List.forall_mem_cons.1 hds
    rw [List.cons_append, ← List.nil_append (d :: (ds ++ rest)), lowerList_append_digit hd, ih hds]
    rfl

/-- A number in a text keeps the texts around it apart. -/
theorem lower_numbered (s : String) (n : Nat) (t : String) :
    lower (s ++ Nat.repr n ++ t) = lower s ++ Nat.repr n ++ lower t := by
  have hdigits : ∀ d ∈ Nat.toDigits 10 n, d.isDigit = true :=
    fun d hd => Nat.isDigit_of_mem_toDigits (by omega) (by omega) hd
  apply String.toList_injective
  simp only [lower, String.toList_append, String.toList_ofList, Nat.toList_repr]
  obtain ⟨d, ds, heq⟩ := List.exists_cons_of_ne_nil (Nat.toDigits_ne_nil (b := 10) (n := n))
  rw [heq] at hdigits ⊢
  obtain ⟨hd, hds⟩ := List.forall_mem_cons.1 hdigits
  rw [List.append_assoc, List.cons_append, lowerList_append_digit hd, lowerList_digits hds]
  simp

/-- A character has as many small letters inside of a word as outside. -/
theorem length_lowerList (before cs : List Char) :
    (lowerList before cs).length = (cs.flatMap lowerChar).length := by
  induction cs generalizing before with
  | nil => rfl
  | cons c cs ih =>
    rw [lowerList, List.flatMap_cons, List.length_append, List.length_append, ih]
    congr 1
    split
    · next hsigma =>
      have hc : c.toNat = 0x3a3 := by simpa using (Bool.and_eq_true_iff.1 (Bool.and_eq_true_iff.1 hsigma).1).1
      simp [lowerChar, hc]
    · rfl

theorem length_le_lower (s : String) : s.length ≤ (lower s).length := by
  have hchar : ∀ c, 0 < (lowerChar c).length := by
    intro c
    unfold lowerChar
    split_ifs <;> exact Nat.succ_pos _
  have hlist : ∀ cs : List Char, cs.length ≤ (cs.flatMap lowerChar).length := by
    intro cs
    induction cs with
    | nil => exact Nat.le_refl _
    | cons c cs ih =>
      have hc := hchar c
      rw [List.flatMap_cons, List.length_append, List.length_cons]
      omega
  rw [lower, String.length_ofList, length_lowerList, ← String.length_toList]
  exact hlist s.toList

theorem length_lower_append (s t : String) :
    (lower (s ++ t)).length = (lower s).length + (lower t).length := by
  simp [lower, length_lowerList]

end OpenApi.Text
