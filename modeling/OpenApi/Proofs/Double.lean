import Mathlib.Algebra.Order.Ring.Nat
import Mathlib.Data.Nat.Log
import Mathlib.Tactic.Ring
import OpenApi.Double.Decimal

/-!
Integers as floating point numbers. An integer is read with 53 significant bits, the nearest that there
are; it is kept exactly if no bit that is lost is set, and if it is not beyond the range.
-/
namespace OpenApi.Double

variable {den a k : Nat}

/-- The first integer beyond the range. -/
def bound : Nat := 2 ^ 1024

theorem bound_pos : 0 < bound := pow_pos two_pos 1024

/-! ### Rounding -/

theorem le_roundHalfEven (num den : Nat) : num / den ≤ roundHalfEven num den := by
  unfold roundHalfEven
  dsimp only
  split_ifs <;> omega

theorem roundHalfEven_le (num den : Nat) : roundHalfEven num den ≤ num / den + 1 := by
  unfold roundHalfEven
  dsimp only
  split_ifs <;> omega

theorem roundHalfEven_mul (q : Nat) (hden : 0 < den) : roundHalfEven (q * den) den = q := by
  unfold roundHalfEven
  rw [Nat.mul_div_cancel q hden, Nat.mul_mod_left]
  exact if_pos (by omega)

theorem roundHalfEven_of_dvd {num : Nat} (hden : 0 < den) (h : den ∣ num) :
    roundHalfEven num den * den = num := by
  obtain ⟨q, rfl⟩ := h
  rw [Nat.mul_comm den q, roundHalfEven_mul q hden]

theorem roundHalfEven_one (q : Nat) : roundHalfEven q 1 = q := by
  simpa using roundHalfEven_mul q Nat.one_pos

/-- The number of bits of an integer beyond the first 53. -/
def spareBits (a : Nat) : Nat := a.log2 - 52

/-- The integer of at most 53 significant bits that is nearest to `a`; of two the one that ends in an even
bit. -/
def rounded (a : Nat) : Nat := roundHalfEven a (2 ^ spareBits a) * 2 ^ spareBits a

/-! ### Reading an integer -/

theorem scaled_natCast (a k : Nat) : scaled a 1 k = (a, 2 ^ k) := by
  unfold scaled
  rw [if_pos (Int.natCast_nonneg k), Int.toNat_natCast, Nat.one_mul, Nat.pow_eq]

theorem scaled_neg_natCast (a k : Nat) : scaled a 1 (-(k : Int)) = (a * 2 ^ k, 1) := by
  cases k with
  | zero => simpa using scaled_natCast a 0
  | succ k =>
    unfold scaled
    rw [if_neg (by omega), neg_neg, Int.toNat_natCast, Nat.pow_eq]

/-- The first bit of an integer is the first of the 53 bits. -/
theorem fittingExponent_one (ha : a ≠ 0) : fittingExponent a 1 = (a.log2 : Int) - 52 := by
  have hlow : 2 ^ a.log2 ≤ a := Nat.log2_self_le ha
  have hguess : max ((a.log2 : Int) - (Nat.log2 1 : Nat) - 53) minExponent = (a.log2 : Int) - 53 := by
    have hone : Nat.log2 1 = 0 := by decide
    rw [hone, minExponent]
    omega
  have hlarge : ¬ (scaled a 1 ((a.log2 : Int) - 53)).1 / (scaled a 1 ((a.log2 : Int) - 53)).2 <
      Nat.pow 2 53 := by
    rw [Nat.pow_eq, not_lt]
    rcases Nat.le_total 53 a.log2 with hle | hle
    · obtain ⟨k, hk⟩ := Nat.exists_eq_add_of_le hle
      have hexp : (a.log2 : Int) - 53 = k := by omega
      rw [hexp, scaled_natCast, Nat.le_div_iff_mul_le (Nat.two_pow_pos k), ← Nat.pow_add, ← hk]
      exact hlow
    · obtain ⟨k, hk⟩ := Nat.exists_eq_add_of_le hle
      have hexp : (a.log2 : Int) - 53 = -(k : Int) := by omega
      rw [hexp, scaled_neg_natCast, Nat.div_one, hk, Nat.pow_add]
      exact Nat.mul_le_mul_right _ hlow
  unfold fittingExponent
  rw [hguess]
  dsimp only
  rw [if_neg hlarge]
  omega

theorem toInt?_finite (negative : Bool) (m k : Nat) : (finite negative m k).toInt? =
    some (if negative then -((m * 2 ^ k : Nat) : Int) else (m * 2 ^ k : Nat)) := by
  simp [toInt?, toRatio?]

/-- Zeros behind the point are no part of an integer. -/
theorem toInt?_finite_neg (negative : Bool) (a k : Nat) :
    (finite negative (a * 2 ^ k) (-(k : Int))).toInt? = some (if negative then -(a : Int) else a) := by
  cases k with
  | zero => simp [toInt?, toRatio?]
  | succ k =>
    have hneg : ¬ -((k + 1 : Nat) : Int) ≥ 0 := by omega
    have hsign : (if negative then -((a * 2 ^ (k + 1) : Nat) : Int) else (a * 2 ^ (k + 1) : Nat)) =
        (if negative then -(a : Int) else a) * (2 ^ (k + 1) : Nat) := by
      split <;> push_cast <;> ring
    have hne : ((2 ^ (k + 1) : Nat) : Int) ≠ 0 := Int.natCast_ne_zero.2 (Nat.two_pow_pos _).ne'
    simp only [toInt?, toRatio?, if_neg hneg, neg_neg, Int.toNat_natCast, Nat.pow_eq, hsign,
      Option.bind_some, Int.mul_emod_left, Int.mul_ediv_cancel _ hne, if_true]

/-- Of all the numbers with 53 bits those that are not beyond the range are left. -/
theorem toInt?_limited {negative : Bool} {m : Nat} (hlow : 2 ^ 52 ≤ m) (hhigh : m < 2 ^ 53) :
    (if (k : Int) > maxExponent then infinite negative else finite negative m k).toInt? =
      if m * 2 ^ k < bound then
        some (if negative then -((m * 2 ^ k : Nat) : Int) else (m * 2 ^ k : Nat))
      else none := by
  by_cases hk : (k : Int) > maxExponent
  · have hexp : 1024 ≤ 52 + k := by
      rw [maxExponent] at hk
      omega
    have hge : bound ≤ m * 2 ^ k := calc
      bound ≤ 2 ^ (52 + k) := pow_le_pow_right₀ one_le_two hexp
      _ = 2 ^ 52 * 2 ^ k := Nat.pow_add 2 52 k
      _ ≤ m * 2 ^ k := Nat.mul_le_mul_right _ hlow
    rw [if_pos hk, if_neg (not_lt.2 hge)]
    rfl
  · have hexp : 53 + k ≤ 1024 := by
      rw [maxExponent] at hk
      omega
    have hlt : m * 2 ^ k < bound := calc
      m * 2 ^ k < 2 ^ 53 * 2 ^ k := Nat.mul_lt_mul_of_pos_right hhigh (Nat.two_pow_pos k)
      _ = 2 ^ (53 + k) := (Nat.pow_add 2 53 k).symm
      _ ≤ bound := pow_le_pow_right₀ one_le_two hexp
    rw [if_neg hk, if_pos hlt, toInt?_finite]

theorem ofRatio_eq {negative : Bool} {num n d : Nat} {e : Int} (hnum : num ≠ 0)
    (he : fittingExponent num den = e) (hs : scaled num den e = (n, d)) :
    ofRatio negative num den =
      if roundHalfEven n d = 2 ^ 53 then
        if e + 1 > maxExponent then infinite negative else finite negative (2 ^ 52) (e + 1)
      else if e > maxExponent then infinite negative else finite negative (roundHalfEven n d) e := by
  simp only [ofRatio, if_neg hnum, he, hs, Nat.pow_eq]
  split <;> rfl

/-- Fewer than 53 bits are kept as they are, with zeros behind them. -/
theorem ofRatio_one_small (negative : Bool) (ha : a ≠ 0) (hk : 52 = a.log2 + k) :
    (ofRatio negative a 1).toInt? = some (if negative then -(a : Int) else a) := by
  have hhigh : a * 2 ^ k < 2 ^ 53 := calc
    a * 2 ^ k < 2 ^ (a.log2 + 1) * 2 ^ k :=
      Nat.mul_lt_mul_of_pos_right Nat.lt_log2_self (Nat.two_pow_pos k)
    _ = 2 ^ 53 := by rw [← Nat.pow_add]; congr 1; omega
  have hexp : fittingExponent a 1 = -(k : Int) := by
    rw [fittingExponent_one ha]
    omega
  rw [ofRatio_eq ha hexp (scaled_neg_natCast a k), roundHalfEven_one, if_neg hhigh.ne,
    if_neg (by rw [maxExponent]; omega), toInt?_finite_neg]

/-- Rounding keeps the first bit where it is, or moves it up. -/
theorem two_pow_le_roundHalfEven (ha : a ≠ 0) (hk : a.log2 = 52 + k) :
    2 ^ 52 ≤ roundHalfEven a (2 ^ k) := by
  refine le_trans ?_ (le_roundHalfEven a (2 ^ k))
  rw [Nat.le_div_iff_mul_le (Nat.two_pow_pos k), ← Nat.pow_add, ← hk]
  exact Nat.log2_self_le ha

theorem ofRatio_one_large (negative : Bool) (ha : a ≠ 0) (hk : a.log2 = 52 + k) :
    (ofRatio negative a 1).toInt? =
      if roundHalfEven a (2 ^ k) * 2 ^ k < bound then
        some (if negative then -((roundHalfEven a (2 ^ k) * 2 ^ k : Nat) : Int)
          else (roundHalfEven a (2 ^ k) * 2 ^ k : Nat))
      else none := by
  have hhigh : roundHalfEven a (2 ^ k) ≤ 2 ^ 53 := by
    refine (roundHalfEven_le a (2 ^ k)).trans (Nat.succ_le_of_lt ?_)
    rw [Nat.div_lt_iff_lt_mul (Nat.two_pow_pos k), ← Nat.pow_add]
    exact Nat.lt_log2_self.trans_eq (by rw [hk]; congr 1; omega)
  have hexp : fittingExponent a 1 = k := by
    rw [fittingExponent_one ha]
    omega
  rw [ofRatio_eq ha hexp (scaled_natCast a k)]
  rcases hhigh.eq_or_lt with hcarry | hhigh
  · -- rounding up makes one bit more, and the exponent makes up for it
    have hshift : 2 ^ 53 * 2 ^ k = 2 ^ 52 * 2 ^ (k + 1) := by ring
    rw [if_pos hcarry, hcarry, hshift]
    exact toInt?_limited le_rfl (by decide)
  · rw [if_neg hhigh.ne]
    exact toInt?_limited (two_pow_le_roundHalfEven ha hk) hhigh

theorem rounded_of_log2_le (h : a.log2 ≤ 52) : rounded a = a := by
  rw [rounded, spareBits, Nat.sub_eq_zero_of_le h, pow_zero, roundHalfEven_one, Nat.mul_one]

theorem rounded_of_log2_eq (hk : a.log2 = 52 + k) : rounded a = roundHalfEven a (2 ^ k) * 2 ^ k := by
  rw [rounded, spareBits, hk, Nat.add_sub_cancel_left]

theorem ofRatio_one (negative : Bool) (ha : a ≠ 0) : (ofRatio negative a 1).toInt? =
    if rounded a < bound then some (if negative then -(rounded a : Int) else rounded a)
    else none := by
  rcases Nat.le_total 52 a.log2 with hle | hle
  · obtain ⟨k, hk⟩ := Nat.exists_eq_add_of_le hle
    rw [rounded_of_log2_eq hk]
    exact ofRatio_one_large negative ha hk
  · obtain ⟨k, hk⟩ := Nat.exists_eq_add_of_le hle
    have hlt : a < bound := calc
      a < 2 ^ (a.log2 + 1) := Nat.lt_log2_self
      _ ≤ bound := pow_le_pow_right₀ one_le_two (by omega)
    rw [rounded_of_log2_le hle, if_pos hlt]
    exact ofRatio_one_small negative ha hk

theorem bound_le_rounded (h : bound ≤ a) : bound ≤ rounded a := by
  have hlog : 1024 ≤ a.log2 := by
    by_contra hlt
    have hpow : 2 ^ (a.log2 + 1) ≤ bound := pow_le_pow_right₀ one_le_two (by omega)
    exact (Nat.lt_log2_self.trans_le (hpow.trans h)).false
  obtain ⟨k, hk⟩ := Nat.exists_eq_add_of_le (show 52 ≤ a.log2 by omega)
  calc
    bound ≤ 2 ^ (52 + k) := pow_le_pow_right₀ one_le_two (by omega)
    _ = 2 ^ 52 * 2 ^ k := pow_add 2 52 k
    _ ≤ roundHalfEven a (2 ^ k) * 2 ^ k :=
      Nat.mul_le_mul_right _ (two_pow_le_roundHalfEven (bound_pos.trans_le h).ne' hk)
    _ = rounded a := (rounded_of_log2_eq hk).symm

theorem bound_le_ten_pow {n : Nat} (hn : 310 ≤ n) : bound ≤ 10 ^ n := calc
  bound ≤ 2 ^ (205 * 5) := pow_le_pow_right₀ one_le_two (by omega)
  _ = (2 ^ 205) ^ 5 := pow_mul 2 205 5
  _ ≤ (10 ^ 62) ^ 5 := Nat.pow_le_pow_left (by decide) 5
  _ = 10 ^ (62 * 5) := (pow_mul 10 62 5).symm
  _ ≤ 10 ^ n := pow_le_pow_right₀ (by decide) hn

theorem toInt?_zero (negative : Bool) : (zero negative).toInt? = some 0 := by
  have hzero := toInt?_finite_neg negative 0 1074
  rw [Nat.zero_mul] at hzero
  exact hzero.trans (by cases negative <;> rfl)

/-- An integer in decimal digits is read as the nearest one that is left. -/
theorem ofDecimal_integer (negative : Bool) (a : Nat) : (ofDecimal negative a 0).toInt? =
    if rounded a < bound then some (if negative then -(rounded a : Int) else rounded a)
    else none := by
  by_cases ha : a = 0
  · have hzero : rounded 0 = 0 := rounded_of_log2_le (by decide)
    rw [ha, hzero, if_pos bound_pos, ofDecimal, if_pos rfl, toInt?_zero]
    cases negative <;> rfl
  · unfold ofDecimal
    rw [if_neg ha]
    dsimp only
    by_cases htop : (0 : Int) + (Nat.toDigits 10 a).length > 310
    · -- too many digits for any number
      obtain ⟨n, hn⟩ := Nat.exists_eq_add_of_lt (show 310 < (Nat.toDigits 10 a).length by omega)
      have hdigits : ¬ (Nat.toDigits 10 a).length ≤ 310 + n := by omega
      rw [Nat.length_toDigits_le_iff (by decide) (by omega), Nat.not_lt] at hdigits
      have hlarge : bound ≤ a := (bound_le_ten_pow (Nat.le_add_right 310 n)).trans hdigits
      rw [if_pos htop, if_neg (Nat.not_lt.2 (bound_le_rounded hlarge))]
      rfl
    · rw [if_neg htop, if_neg (by omega), if_pos le_rfl]
      simpa using ofRatio_one negative ha

/-! ### Exact integers -/

/-- The integers that are floating point numbers: 53 bits, shifted no further than the largest exponent
allows. -/
def Exact (a : Nat) : Prop := ∃ m e, a = m * 2 ^ e ∧ m < 2 ^ 53 ∧ e ≤ 971

theorem Exact.lt_bound (h : Exact a) : a < bound := by
  obtain ⟨m, e, rfl, hm, he⟩ := h
  calc
    m * 2 ^ e < 2 ^ 53 * 2 ^ e := Nat.mul_lt_mul_of_pos_right hm (Nat.two_pow_pos e)
    _ = 2 ^ (53 + e) := (pow_add 2 53 e).symm
    _ ≤ bound := pow_le_pow_right₀ one_le_two (by omega)

/-- The bits that do not fit are zeros. -/
theorem Exact.rounded_eq (h : Exact a) : rounded a = a := by
  obtain ⟨m, e, rfl, hm, -⟩ := h
  by_cases hzero : m * 2 ^ e = 0
  · rw [hzero]
    exact rounded_of_log2_le (by decide)
  · have hlog : (m * 2 ^ e).log2 < 53 + e := by
      rw [Nat.log2_lt hzero, Nat.pow_add]
      exact Nat.mul_lt_mul_of_pos_right hm (Nat.two_pow_pos e)
    have hspare : spareBits (m * 2 ^ e) ≤ e := by
      rw [spareBits]
      omega
    exact roundHalfEven_of_dvd (Nat.two_pow_pos _) ((pow_dvd_pow 2 hspare).trans (Nat.dvd_mul_left _ m))

theorem exact_iff : Exact a ↔ rounded a = a ∧ a < bound := by
  refine ⟨fun h => ⟨h.rounded_eq, h.lt_bound⟩, fun ⟨hrounded, hbound⟩ => ?_⟩
  refine ⟨roundHalfEven a (2 ^ spareBits a), spareBits a, hrounded.symm, ?_, ?_⟩
  · have hlt : rounded a < 2 ^ 53 * 2 ^ spareBits a := calc
      rounded a < 2 ^ (a.log2 + 1) := hrounded.trans_lt Nat.lt_log2_self
      _ ≤ 2 ^ (53 + spareBits a) := pow_le_pow_right₀ one_le_two (by rw [spareBits]; omega)
      _ = 2 ^ 53 * 2 ^ spareBits a := pow_add 2 53 _
    exact Nat.lt_of_mul_lt_mul_right hlt
  · by_contra hlarge
    have hlog : 1024 ≤ a.log2 := by
      rw [spareBits] at hlarge
      omega
    have ha : a ≠ 0 := by
      rintro rfl
      simp at hlog
    have hpow : bound ≤ 2 ^ a.log2 := pow_le_pow_right₀ one_le_two hlog
    exact (hbound.trans_le (hpow.trans (Nat.log2_self_le ha))).false

end OpenApi.Double
