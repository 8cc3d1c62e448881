import Mathlib.Data.List.TakeDrop
import Mathlib.Data.List.TakeWhile
import OpenApi.Proofs.Text.Split
import OpenApi.Text.Number
import OpenApi.Value.Text

/-!
An integer is read back from its text, unless it has too many digits for one.
-/
namespace OpenApi

namespace Text

/-- The characters of the text of an integer. -/
def isIntChar (c : Char) : Bool := c.isDigit || c == '-'

theorem toNat_of_isDigit {c : Char} (h : c.isDigit = true) : 48 ≤ c.toNat ∧ c.toNat ≤ 57 := by
  simp only [Char.isDigit, Bool.and_eq_true, decide_eq_true_eq, ge_iff_le,
    UInt32.le_iff_toNat_le] at h
  exact h

theorem toNat_of_isIntChar {c : Char} (h : isIntChar c = true) :
    c = '-' ∨ (48 ≤ c.toNat ∧ c.toNat ≤ 57 ∧ c.isDigit = true) := by
  simp only [isIntChar, Bool.or_eq_true, beq_iff_eq] at h
  rcases h with h | h
  · have ⟨hlow, hhigh⟩ := toNat_of_isDigit h
    exact .inr ⟨hlow, hhigh, h⟩
  · exact .inl h

theorem isNumberBlank_of_isIntChar {c : Char} (h : isIntChar c = true) :
    isNumberBlank c = false := by
  rcases toNat_of_isIntChar h with rfl | ⟨hlow, hhigh, -⟩
  · decide
  · have hblank : isBlank c = false := by
      simp [isBlank, blankRanges, Ranges.has]
      omega
    rw [isNumberBlank, hblank, Bool.false_and]

theorem asciiDigits_eq {cs : List Char} (h : ∀ c ∈ cs, isIntChar c = true) :
    asciiDigits cs = cs := by
  unfold asciiDigits
  conv_rhs => rw [← List.map_id cs]
  apply List.map_congr_left
  intro c hc
  rcases toNat_of_isIntChar (h c hc) with rfl | ⟨hlow, hhigh, hdigit⟩
  · rfl
  · have hval : decimalValue? c = some (c.toNat - 0x30) := by
      rw [decimalValue?, if_pos (by omega), if_pos hdigit]
    have hsum : 0x30 + (c.toNat - 0x30) = c.toNat := by omega
    rw [hval]
    dsimp only
    rw [hsum, Char.ofNat_toNat]
    rfl

theorem linesBetweenDigits_of_not_mem {cs : List Char} (h : '_' ∉ cs) (afterDigit : Bool) :
    linesBetweenDigits afterDigit cs = true := by
  induction cs generalizing afterDigit with
  | nil => rfl
  | cons c cs ih =>
    have ⟨hc, hcs⟩ : '_' ≠ c ∧ '_' ∉ cs := by simpa using h
    have hne : (c == '_') = false := beq_false_of_ne (Ne.symm hc)
    rw [linesBetweenDigits, hne]
    exact ih hcs c.isDigit

theorem numberText?_eq {s : String} (h : ∀ c ∈ s.toList, isIntChar c = true) :
    numberText? s = some s.toList := by
  have hline : '_' ∉ s.toList := by
    intro hmem
    have hbad := h '_' hmem
    revert hbad
    decide
  have htrim : trimList isNumberBlank s.toList = s.toList :=
    trimList_of_all fun c hc => isNumberBlank_of_isIntChar (h c hc)
  have hfilter : s.toList.filter (· != '_') = s.toList := by
    rw [List.filter_eq_self]
    intro c hc
    rw [bne_iff_ne]
    rintro rfl
    exact hline hc
  rw [numberText?, htrim, asciiDigits_eq h, if_pos (linesBetweenDigits_of_not_mem hline false),
    hfilter]

theorem digitsValue_toDigits (n : Nat) : digitsValue (Nat.toDigits 10 n) = n :=
  Nat.ofDigitChars_toDigits (by omega) (by omega)

theorem signOf_digits {ds : List Char} (h : ∀ c ∈ ds, c.isDigit = true) :
    signOf ds = (false, ds) := by
  unfold signOf
  split
  · exact absurd (h '-' (by simp)) (by decide)
  · exact absurd (h '+' (by simp)) (by decide)
  · rfl

theorem readInt?_of_sign {s : String} {negative : Bool} {n : Nat}
    (hs : ∀ c ∈ s.toList, isIntChar c = true)
    (hsign : signOf s.toList = (negative, Nat.toDigits 10 n)) :
    readInt? s = if (Nat.toDigits 10 n).length ≤ maxDigits then
      some (if negative then -(n : Int) else n) else none := by
  have hdigit : (Nat.toDigits 10 n).all Char.isDigit = true := List.all_eq_true.2 fun c hc =>
    Nat.isDigit_of_mem_toDigits (by omega) (by omega) hc
  have hne : (Nat.toDigits 10 n).isEmpty = false := by
    rw [List.isEmpty_eq_false_iff]
    exact Nat.toDigits_ne_nil
  unfold readInt?
  rw [numberText?_eq hs]
  simp only [Option.bind_eq_bind, Option.bind_some, hsign, hne, hdigit, digitsValue_toDigits]
  by_cases hmax : (Nat.toDigits 10 n).length ≤ maxDigits
  · rw [if_neg (by simpa using hmax), if_pos hmax]
  · rw [if_pos (by simpa using hmax), if_neg hmax]

end Text

theorem isDigit_of_mem_toDigits {n : Nat} {c : Char} (h : c ∈ Nat.toDigits 10 n) : c.isDigit = true :=
  Nat.isDigit_of_mem_toDigits (by omega) (by omega) h

/-- The text of an integer is its digits, with a sign before them if it is negative. -/
theorem toList_intText (n : Int) : (intText n).toList =
    if n < 0 then '-' :: Nat.toDigits 10 n.natAbs else Nat.toDigits 10 n.natAbs := by
  unfold intText
  split
  · rw [String.toList_append, Nat.toList_repr]
    rfl
  · exact Nat.toList_repr

theorem isIntChar_of_mem_intText {n : Int} : ∀ c ∈ (intText n).toList, Text.isIntChar c = true := by
  have hdigits : ∀ c ∈ Nat.toDigits 10 n.natAbs, Text.isIntChar c = true := fun c hc => by
    rw [Text.isIntChar, isDigit_of_mem_toDigits hc, Bool.true_or]
  rw [toList_intText]
  split
  · exact List.forall_mem_cons.2 ⟨rfl, hdigits⟩
  · exact hdigits

theorem signOf_intText (n : Int) :
    Text.signOf (intText n).toList = (decide (n < 0), Nat.toDigits 10 n.natAbs) := by
  rw [toList_intText]
  split
  · next hneg => rw [Text.signOf, decide_eq_true hneg]
  · next hneg => rw [Text.signOf_digits fun c => isDigit_of_mem_toDigits, decide_eq_false hneg]

/-- An integer is read back unless it has too many digits. -/
theorem readInt?_intText_eq (n : Int) : Text.readInt? (intText n) =
    if (Nat.toDigits 10 n.natAbs).length ≤ Text.maxDigits then some n else none := by
  have hsigned : (if decide (n < 0) = true then -(n.natAbs : Int) else n.natAbs) = n := by
    simp only [decide_eq_true_eq]
    omega
  rw [Text.readInt?_of_sign isIntChar_of_mem_intText (signOf_intText n), hsigned]

theorem readInt?_intText {n : Int} (hmax : (Nat.toDigits 10 n.natAbs).length ≤ Text.maxDigits) :
    Text.readInt? (intText n) = some n :=
  (readInt?_intText_eq n).trans (if_pos hmax)

/-! ### Integers among numbers -/

theorem toLower_of_isDigit {c : Char} (h : c.isDigit = true) : c.toLower = c := by
  have hhigh := (Text.toNat_of_isDigit h).2
  unfold Char.toLower
  split
  · next hupper =>
    have hlow : 65 ≤ c.toNat := hupper.1
    omega
  · rfl

/-- Digits are no word. -/
theorem asciiLower_ne {ds : List Char} (h : ∀ c ∈ ds, c.isDigit = true) (hne : ds ≠ []) {word : String}
    (hword : (word.toList.all fun c => !c.isDigit) = true) : Text.asciiLower ds ≠ word := by
  rintro rfl
  obtain ⟨c, rest, rfl⟩ := List.exists_cons_of_ne_nil hne
  have hdigit := h c List.mem_cons_self
  rw [Text.asciiLower, String.toList_ofList, List.map_cons, List.all_cons, toLower_of_isDigit hdigit,
    hdigit] at hword
  cases hword

theorem readDouble?_intText (n : Int) :
    Text.readDouble? (intText n) = some (.ofDecimal (decide (n < 0)) n.natAbs 0) := by
  have hdigits : ∀ c ∈ Nat.toDigits 10 n.natAbs, c.isDigit = true := fun c => isDigit_of_mem_toDigits
  have hne : Nat.toDigits 10 n.natAbs ≠ [] := Nat.toDigits_ne_nil
  have hspan : (Nat.toDigits 10 n.natAbs).span Char.isDigit = (Nat.toDigits 10 n.natAbs, []) := by
    rw [List.span_eq_takeWhile_dropWhile, List.takeWhile_eq_self_iff.2 hdigits,
      List.dropWhile_eq_nil_iff.2 hdigits]
  have hnan : Text.asciiLower (Nat.toDigits 10 n.natAbs) ≠ "nan" := asciiLower_ne hdigits hne rfl
  have hinf : Text.asciiLower (Nat.toDigits 10 n.natAbs) ≠ "inf" := asciiLower_ne hdigits hne rfl
  have hinfinity : Text.asciiLower (Nat.toDigits 10 n.natAbs) ≠ "infinity" :=
    asciiLower_ne hdigits hne rfl
  unfold Text.readDouble?
  rw [Text.numberText?_eq isIntChar_of_mem_intText]
  simp only [Option.bind_eq_bind, Option.bind_some, signOf_intText, hspan, Text.fractionOf,
    Text.readExponent?]
  simp [hnan, hinf, hinfinity, Text.digitsValue_toDigits]

theorem isDecimal_of_isDigit {c : Char} (h : c.isDigit = true) : Text.isDecimal c = true := by
  have hhigh := (Text.toNat_of_isDigit h).2
  rw [Text.isDecimal, Text.decimalValue?, if_pos (by omega), if_pos h]
  rfl

theorem isWholeNumeral_intText (n : Int) : Text.isWholeNumeral (intText n) = true := by
  have hdigits : ∀ c ∈ Nat.toDigits 10 n.natAbs, c.isDigit = true := fun c => isDigit_of_mem_toDigits
  have hwhole : (!(Nat.toDigits 10 n.natAbs).isEmpty &&
      (Nat.toDigits 10 n.natAbs).all Text.isDecimal) = true := by
    rw [List.isEmpty_eq_false_iff.2 Nat.toDigits_ne_nil]
    exact List.all_eq_true.2 fun c hc => isDecimal_of_isDigit (hdigits c hc)
  unfold Text.isWholeNumeral
  rw [toList_intText]
  by_cases hneg : n < 0
  · rw [if_pos hneg]
    exact hwhole
  · rw [if_neg hneg]
    split
    · next heq =>
      rw [heq] at hdigits
      cases hdigits '-' List.mem_cons_self
    · exact hwhole

end OpenApi
