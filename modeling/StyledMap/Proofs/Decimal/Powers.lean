import Mathlib
import StyledMap.Decimal.Binary64

/-! Powers of two and ten as rational numbers, and where the first bit of a number is. -/
namespace StyledMap.Decimal

theorem power_pos {b : Nat} (h : 0 < b) (e : Int) : 0 < power b e := Nat.pow_pos h

/-- A power is written without a fraction by splitting off the one with the opposite exponent. -/
theorem cast_power {b : Nat} (h : 0 < b) (e : Int) :
    (power b e : ℚ) = (b : ℚ) ^ e * power b (-e) := by
  have hbase : (b : ℚ) ≠ 0 := by positivity
  unfold power
  push_cast
  rw [← zpow_natCast, ← zpow_natCast, ← zpow_add₀ hbase]
  congr 1
  omega

/-- A number as a quotient of whole ones. -/
theorem quotient_eq {b : Nat} (h : 0 < b) (n : Nat) (e : Int) :
    ((n * power b e : Nat) : ℚ) / (power b (-e) : Nat) = n * (b : ℚ) ^ e := by
  have hsplit := cast_power h e
  have hpos : (0 : ℚ) < power b (-e) := Nat.cast_pos.2 (power_pos h _)
  rw [Nat.cast_mul, hsplit, div_eq_iff hpos.ne']
  ring

theorem pow_mul_zpow (n : Nat) (e : Int) : (2 : ℚ) ^ n * 2 ^ e = 2 ^ (e + n) := by
  rw [zpow_add₀ two_ne_zero, zpow_natCast, mul_comm]

theorem log2_add_le {m k : Nat} {e f : Int} (hm : 0 < m) (h : (m : ℚ) * 2 ^ e ≤ k * 2 ^ f) :
    (m.log2 : Int) + e ≤ k.log2 + f := by
  have hlow : (2 : ℚ) ^ ((m.log2 : Int) + e) ≤ m * 2 ^ e := by
    rw [zpow_add₀ two_ne_zero, zpow_natCast]
    have hpow : ((2 ^ m.log2 : Nat) : ℚ) ≤ m := Nat.cast_le.2 (Nat.log2_self_le hm.ne')
    have hnonneg : (0 : ℚ) ≤ 2 ^ e := by positivity
    exact mul_le_mul_of_nonneg_right (by exact_mod_cast hpow) hnonneg
  have hhigh : (k : ℚ) * 2 ^ f < 2 ^ ((k.log2 : Int) + 1 + f) := by
    rw [zpow_add₀ two_ne_zero]
    have hpow : (k : ℚ) < ((2 ^ (k.log2 + 1) : Nat) : ℚ) := Nat.cast_lt.2 Nat.lt_log2_self
    have hpos : (0 : ℚ) < 2 ^ f := by positivity
    exact mul_lt_mul_of_pos_right (by exact_mod_cast hpow) hpos
  have hlt : (m.log2 : Int) + e < k.log2 + 1 + f :=
    (zpow_lt_zpow_iff_right₀ one_lt_two).1 (hlow.trans_lt (h.trans_lt hhigh))
  omega

/-- Equal numbers have their first bits in the same place. -/
theorem log2_add_eq {m k : Nat} {e f : Int} (hm : 0 < m) (hk : 0 < k)
    (h : (m : ℚ) * 2 ^ e = k * 2 ^ f) : (m.log2 : Int) + e = k.log2 + f :=
  le_antisymm (log2_add_le hm h.le) (log2_add_le hk h.ge)

/-- The first bit of a quotient is where those of its parts are apart, or one place lower. -/
theorem zpow_le_div {num den : Nat} (hnum : 0 < num) (hden : 0 < den) :
    (2 : ℚ) ^ ((num.log2 : Int) - den.log2 - 1) ≤ num / den := by
  have hlow : ((2 ^ num.log2 : Nat) : ℚ) ≤ num := Nat.cast_le.2 (Nat.log2_self_le hnum.ne')
  have hhigh : (den : ℚ) ≤ (2 ^ (den.log2 + 1) : Nat) := Nat.cast_le.2 Nat.lt_log2_self.le
  rw [le_div_iff₀ (by positivity)]
  calc (2 : ℚ) ^ ((num.log2 : Int) - den.log2 - 1) * den
      ≤ 2 ^ ((num.log2 : Int) - den.log2 - 1) * (2 ^ (den.log2 + 1) : Nat) := by gcongr
    _ = 2 ^ num.log2 := by
        rw [Nat.cast_pow, Nat.cast_ofNat, mul_comm, pow_mul_zpow, ← zpow_natCast]
        congr 1
        push_cast
        ring
    _ ≤ num := by exact_mod_cast hlow

theorem div_lt_zpow {num den : Nat} (hden : 0 < den) :
    (num / den : ℚ) < 2 ^ ((num.log2 : Int) - den.log2 + 1) := by
  have hlow : ((2 ^ den.log2 : Nat) : ℚ) ≤ den := Nat.cast_le.2 (Nat.log2_self_le hden.ne')
  have hhigh : (num : ℚ) < (2 ^ (num.log2 + 1) : Nat) := Nat.cast_lt.2 Nat.lt_log2_self
  rw [div_lt_iff₀ (by positivity)]
  calc (num : ℚ) < 2 ^ (num.log2 + 1) := by exact_mod_cast hhigh
    _ = 2 ^ ((num.log2 : Int) - den.log2 + 1) * (2 ^ den.log2 : Nat) := by
        rw [Nat.cast_pow, Nat.cast_ofNat, mul_comm, pow_mul_zpow, ← zpow_natCast]
        congr 1
        push_cast
        ring
    _ ≤ 2 ^ ((num.log2 : Int) - den.log2 + 1) * den := by gcongr

theorem zpow_le_zpow_of_pow_le {b c k n : Nat} (h : b ^ k ≤ c ^ n) :
    (b : ℚ) ^ (k : Int) ≤ (c : ℚ) ^ (n : Int) := by
  rw [zpow_natCast, zpow_natCast, ← Nat.cast_pow, ← Nat.cast_pow]
  exact Nat.cast_le.2 h

/-- `1233 / 4096` is below the logarithm of two to base ten. -/
theorem ten_zpow_le : (10 : ℚ) ^ (1233 : Int) ≤ 2 ^ (4096 : Int) :=
  zpow_le_zpow_of_pow_le (b := 10) (c := 2) (k := 1233) (n := 4096) (by decide +kernel)

/-- It is so by less than one `4096`th. -/
theorem two_zpow_le : (2 : ℚ) ^ (4096 : Int) ≤ 10 ^ (1234 : Int) :=
  zpow_le_zpow_of_pow_le (b := 2) (c := 10) (k := 4096) (n := 1234) (by decide +kernel)

/-- Powers compare as their own powers do. -/
theorem zpow_le_of_mul_le {b c : ℚ} (hb : 0 < b) (hc : 0 < c) {n : Int} (hn : 0 < n) {a l : Int}
    (h : b ^ (n * a) ≤ c ^ (n * l)) : b ^ a ≤ c ^ l := by
  rw [mul_comm n, mul_comm n, zpow_mul, zpow_mul] at h
  exact (zpow_le_zpow_iff_left₀ (by positivity) (by positivity) hn).1 h

theorem ten_zpow_le_two_zpow {a l : Int} (hl : 0 ≤ l) (h : 4096 * a ≤ 1233 * l) :
    (10 : ℚ) ^ a ≤ 2 ^ l := by
  apply zpow_le_of_mul_le (by norm_num) (by norm_num) (by norm_num : (0 : Int) < 4096)
  calc (10 : ℚ) ^ (4096 * a) ≤ 10 ^ (1233 * l) := zpow_le_zpow_right₀ (by norm_num) h
    _ = (10 ^ (1233 : Int)) ^ l := zpow_mul 10 1233 l
    _ ≤ (2 ^ (4096 : Int)) ^ l := zpow_le_zpow_left₀ hl (by positivity) ten_zpow_le
    _ = 2 ^ (4096 * l) := (zpow_mul 2 4096 l).symm

/-- Downwards the error adds up; one place less makes up for it in the range of the doubles. -/
theorem ten_zpow_sub_one_le {a l : Int} (hl : -2862 ≤ l) (h : 4096 * a ≤ 1233 * l) :
    (10 : ℚ) ^ (a - 1) ≤ 2 ^ (l - 1) := by
  obtain hpos | hneg := le_or_gt 1 l
  · exact ten_zpow_le_two_zpow (by omega) (by omega)
  have hflip : ((10 : ℚ) ^ (1234 : Int)) ^ (l - 1) ≤ (2 ^ (4096 : Int)) ^ (l - 1) := by
    rw [← neg_sub, zpow_neg, zpow_neg]
    exact inv_anti₀ (by positivity) (zpow_le_zpow_left₀ (by omega) (by positivity) two_zpow_le)
  apply zpow_le_of_mul_le (by norm_num) (by norm_num) (by norm_num : (0 : Int) < 4096)
  calc (10 : ℚ) ^ (4096 * (a - 1)) ≤ 10 ^ (1234 * (l - 1)) :=
        zpow_le_zpow_right₀ (by norm_num) (by omega)
    _ = (10 ^ (1234 : Int)) ^ (l - 1) := zpow_mul 10 1234 (l - 1)
    _ ≤ (2 ^ (4096 : Int)) ^ (l - 1) := hflip
    _ = 2 ^ (4096 * (l - 1)) := (zpow_mul 2 4096 (l - 1)).symm

end StyledMap.Decimal
