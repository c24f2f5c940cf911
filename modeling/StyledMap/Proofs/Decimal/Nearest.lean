import StyledMap.Proofs.Decimal.Shortest

/-! The double nearest to a number. A number in the interval of a double is rounded to that double,
also below a power of two, where the scale is one lower and the mantissa carries over. -/
namespace StyledMap.Decimal

/-- A quotient is its whole part and what the remainder adds. -/
theorem div_eq_whole_add (num : Nat) {den : Nat} (hden : 0 < den) :
    (num / den : ℚ) = (num / den : Nat) + ((num % den : Nat) : ℚ) / den := by
  have hpos : (0 : ℚ) < den := by positivity
  have hsum : ((den * (num / den) + num % den : Nat) : ℚ) = num := by rw [Nat.div_add_mod]
  rw [← hsum]
  push_cast
  field_simp

section
variable {r den : Nat}

theorem two_mul_lt_iff (hden : 0 < den) : 2 * r < den ↔ (r / den : ℚ) < 1 / 2 := by
  have hpos : (0 : ℚ) < den := by positivity
  rw [div_lt_iff₀ hpos, ← Nat.cast_lt (α := ℚ)]
  push_cast
  constructor <;> intro h <;> linarith

theorem lt_two_mul_iff (hden : 0 < den) : den < 2 * r ↔ (1 / 2 : ℚ) < r / den := by
  have hpos : (0 : ℚ) < den := by positivity
  rw [lt_div_iff₀ hpos, ← Nat.cast_lt (α := ℚ)]
  push_cast
  constructor <;> intro h <;> linarith

end

/-- A half belongs to its even neighbour. -/
theorem roundHalfEven_eq {num den m : Nat} (hden : 0 < den)
    (h : Between (m % 2 = 0) (m - 1 / 2) (num / den) (m + 1 / 2)) : roundHalfEven num den = m := by
  have hpos : (0 : ℚ) < den := by positivity
  have hparts := div_eq_whole_add num hden
  obtain ⟨q, hq⟩ : ∃ q, q = num / den := ⟨_, rfl⟩
  obtain ⟨r, hr⟩ : ∃ r, r = num % den := ⟨_, rfl⟩
  rw [← hq, ← hr] at hparts
  have hrest : (0 : ℚ) ≤ r / den ∧ (r / den : ℚ) < 1 := by
    refine ⟨by positivity, (div_lt_one hpos).2 (Nat.cast_lt.2 ?_)⟩
    rw [hr]
    exact Nat.mod_lt _ hden
  obtain ⟨hlow, hhigh⟩ := h.le
  rw [hparts] at h hlow hhigh
  unfold roundHalfEven
  simp only [← hq, ← hr, two_mul_lt_iff hden, lt_two_mul_iff hden]
  split
  next hl =>
    have hle : (m : ℚ) < q + 1 := by linarith
    have hge : (q : ℚ) < m + 1 := by linarith
    norm_cast at hle hge
    omega
  next hl =>
    split
    next hm =>
      have hle : (m : ℚ) < q + 2 := by linarith
      have hge : (q : ℚ) < m := by linarith
      norm_cast at hle hge
      omega
    next hm =>
      have hhalf : (r / den : ℚ) = 1 / 2 := le_antisymm (not_lt.1 hm) (not_lt.1 hl)
      rw [hhalf] at h hlow hhigh
      have hle : (m : ℚ) ≤ q + 1 := by linarith
      have hge : (q : ℚ) ≤ m := by linarith
      have heven : m % 2 = 0 := by
        by_contra hodd
        simp only [Between, hodd, decide_false, Bool.false_eq_true, if_false] at h
        have hlt : (m : ℚ) < q + 1 := by linarith
        have hgt : (q : ℚ) < m := by linarith
        norm_cast at hlt hgt
        omega
      norm_cast at hle hge
      split <;> omega

/-- A number in units of a power of two, as a quotient of whole numbers. -/
theorem quotient_scaled (num den : Nat) (e : Int) :
    ((num * power 2 (-e) : Nat) : ℚ) / (den * power 2 e : Nat) = num / den / 2 ^ e := by
  have htwo := cast_power (b := 2) (by decide) e
  have hpos : (0 : ℚ) < power 2 (-e) := Nat.cast_pos.2 (power_pos (by decide) _)
  rw [Nat.cast_mul, Nat.cast_mul, htwo, ← mul_assoc, mul_div_mul_right _ _ hpos.ne', div_div]
  push_cast
  rfl

/-- The scale leaves 53 bits before the point. -/
theorem scaleOf_eq {num den : Nat} (hnum : 0 < num) (hden : 0 < den) {k : Int}
    (hlow : (2 : ℚ) ^ k ≤ num / den) (hhigh : (num / den : ℚ) < 2 ^ (k + 1)) :
    scaleOf num den = max (k - 52) (-1074) := by
  have hbelow := (zpow_lt_zpow_iff_right₀ (one_lt_two (α := ℚ))).1
    ((zpow_le_div hnum hden).trans_lt hhigh)
  have habove := (zpow_lt_zpow_iff_right₀ (one_lt_two (α := ℚ))).1
    (hlow.trans_lt (div_lt_zpow hden))
  obtain ⟨e, he⟩ : ∃ e : Int, e = (num.log2 : Int) - den.log2 - 52 := ⟨_, rfl⟩
  have hwhole : num * power 2 (-e) / (den * power 2 e) < 2 ^ 52 ↔ k < e + 52 := by
    have hpos : 0 < den * power 2 e := Nat.mul_pos hden (power_pos (by decide) e)
    have hcast : (0 : ℚ) < (den * power 2 e : Nat) := Nat.cast_pos.2 hpos
    rw [Nat.div_lt_iff_lt_mul hpos, ← Nat.cast_lt (α := ℚ), Nat.cast_mul (2 ^ 52),
      ← div_lt_iff₀ hcast, quotient_scaled, div_lt_iff₀ (by positivity)]
    have hpow : ((2 ^ 52 : Nat) : ℚ) * 2 ^ e = 2 ^ (e + 52) := by
      rw [zpow_add₀ two_ne_zero, mul_comm]
      norm_num
    rw [hpow]
    constructor
    · intro h
      exact (zpow_lt_zpow_iff_right₀ (one_lt_two (α := ℚ))).1 (hlow.trans_lt h)
    · intro h
      exact hhigh.trans_le (zpow_le_zpow_right₀ one_le_two (by omega))
  unfold scaleOf
  simp only [← he, hwhole]
  split <;> omega

/-- In units of `2 ^ s` the number is rounded to `k`. -/
def RoundsOn (q : ℚ) (k : Nat) (s : Int) : Prop :=
  Between (k % 2 = 0) (k - 1 / 2) (q / 2 ^ s) (k + 1 / 2)

section
variable {q : ℚ} {m : Nat} {e : Int}

theorem Fits.le_of_contains (hfits : Fits m e) (h : (Interval.around m e).Contains q) :
    (m - if m = 2 ^ 52 ∧ -1074 < e then 1 / 4 else 1 / 2) * 2 ^ e ≤ q ∧ q ≤ (m + 1 / 2) * 2 ^ e := by
  obtain ⟨hlow, -, hhigh⟩ := Interval.around_bounds e hfits.pos
  rw [← hlow, ← hhigh]
  exact Between.le h

/-- A double is in its own interval. -/
theorem Fits.contains (hfits : Fits m e) : (Interval.around m e).Contains (m * 2 ^ e) := by
  have hunit : (0 : ℚ) < 2 ^ e := by positivity
  obtain ⟨hlow, -, hhigh⟩ := Interval.around_bounds e hfits.pos
  unfold Interval.Contains
  rw [hlow, hhigh]
  refine between_of_lt (mul_lt_mul_of_pos_right ?_ hunit) (mul_lt_mul_of_pos_right ?_ hunit)
  · split <;> linarith
  · linarith

theorem Fits.pos_of_contains (hfits : Fits m e) (h : (Interval.around m e).Contains q) : 0 < q := by
  have hunit : (0 : ℚ) < 2 ^ e := by positivity
  have hm : (1 : ℚ) ≤ m := by exact_mod_cast hfits.pos
  refine lt_of_lt_of_le (mul_pos ?_ hunit) (hfits.le_of_contains h).1
  split <;> linarith

/-- The whole number in front of a product in the interval is positive too. -/
theorem Fits.pos_of_contains_mul (hfits : Fits m e) {n : Nat} {r : ℚ}
    (h : (Interval.around m e).Contains (n * r)) : 0 < n := by
  have hpos := hfits.pos_of_contains h
  by_contra hzero
  obtain rfl : n = 0 := by omega
  simp at hpos

theorem Fits.lt_of_contains (hfits : Fits m e) (h : (Interval.around m e).Contains q) :
    q < 2 ^ (e + 53) := by
  have hunit : (0 : ℚ) < 2 ^ e := by positivity
  have hm : (m : ℚ) + 1 ≤ 2 ^ 53 := by exact_mod_cast hfits.bits
  have hpow := pow_mul_zpow 53 e
  push_cast at hpow
  rw [← hpow]
  exact (hfits.le_of_contains h).2.trans_lt (mul_lt_mul_of_pos_right (by linarith) hunit)

theorem Fits.roundsOn (hfits : Fits m e) (h : (Interval.around m e).Contains q) : RoundsOn q m e := by
  have hunit : (0 : ℚ) < 2 ^ e := by positivity
  have hq : q = 2 ^ e * (q / 2 ^ e) := by field_simp
  obtain ⟨hlow, -, hhigh⟩ := Interval.around_bounds e hfits.pos
  unfold Interval.Contains at h
  rw [hlow, hhigh, hq, mul_comm _ ((2 : ℚ) ^ e), mul_comm _ ((2 : ℚ) ^ e), between_mul hunit] at h
  exact h.mono (by split <;> linarith)

/-- The interval of a power of two reaches below it. -/
theorem Fits.eq_of_contains_lt (hfits : Fits m e) (he : -1074 < e)
    (h : (Interval.around m e).Contains q) (hq : q < 2 ^ (e + 52)) : m = 2 ^ 52 := by
  have hfull : 2 ^ 52 ≤ m := hfits.full.resolve_right he.ne'
  have hunit : (0 : ℚ) < 2 ^ e := by positivity
  have hpow := pow_mul_zpow 52 e
  push_cast at hpow
  have hlow : ((m : ℚ) - 1 / 2) * 2 ^ e ≤ q := by
    refine le_trans ?_ (hfits.le_of_contains h).1
    gcongr
    split <;> norm_num
  have hlt : ((m : ℚ) - 1 / 2) * 2 ^ e < 2 ^ 52 * 2 ^ e := by
    rw [hpow]
    exact hlow.trans_lt hq
  have hupper : (m : ℚ) < 2 ^ 52 + 1 := by
    have hfactor := lt_of_mul_lt_mul_right hlt hunit.le
    linarith
  norm_cast at hupper
  omega

/-- Below a power of two the scale is one lower, and rounding carries over into the power. -/
theorem Fits.roundsOn_below (hfits : Fits m e) (he : -1074 < e)
    (h : (Interval.around m e).Contains q) (hq : q < 2 ^ (e + 52)) :
    2 ^ (e + 51) ≤ q ∧ RoundsOn q (2 ^ 53) (e - 1) := by
  have hm := hfits.eq_of_contains_lt he h hq
  obtain ⟨hlow, -⟩ := hfits.le_of_contains h
  rw [if_pos ⟨hm, he⟩, hm] at hlow
  have hunit : (0 : ℚ) < 2 ^ (e - 1) := by positivity
  have hhalf : (2 : ℚ) ^ e = 2 * 2 ^ (e - 1) := by
    rw [zpow_sub₀ two_ne_zero]
    ring
  have hfirst := pow_mul_zpow 51 e
  have hpow := pow_mul_zpow 52 e
  push_cast at hlow hfirst hpow
  rw [← hpow, hhalf] at hq
  rw [← hfirst]
  rw [hhalf] at hlow ⊢
  have heven : Between true ((2 ^ 53 : Nat) - 1 / 2) (q / 2 ^ (e - 1)) ((2 ^ 53 : Nat) + 1 / 2) := by
    constructor
    · rw [le_div_iff₀ hunit]
      push_cast
      linarith
    · rw [div_le_iff₀ hunit]
      push_cast
      linarith
  exact ⟨by linarith, heven⟩

end

/-- A number in the interval of a double is rounded on the double's own scale, or on the one below it
to a mantissa that carries over. -/
theorem exists_scale {num den m : Nat} {e : Int} (hnum : 0 < num) (hden : 0 < den) (hfits : Fits m e)
    (h : (Interval.around m e).Contains (num / den)) :
    ∃ k s, scaleOf num den = s ∧ magnitudeBits k s = magnitudeBits m e ∧ RoundsOn (num / den) k s := by
  have hleast := hfits.least
  have hbelow := hfits.lt_of_contains h
  have hsame := hfits.roundsOn h
  by_cases hfirst : (2 : ℚ) ^ (e + 52) ≤ num / den
  · have hscale := scaleOf_eq hnum hden hfirst (by rwa [add_assoc])
    exact ⟨m, e, by omega, rfl, hsame⟩
  rw [not_le] at hfirst
  obtain rfl | he := hleast.eq_or_lt
  · have hlog := Int.zpow_log_le_self (b := 2) (by decide) (hfits.pos_of_contains h)
    have hlog' := Int.lt_zpow_succ_log_self (b := 2) (by decide) (num / den : ℚ)
    push_cast at hlog hlog'
    have hlt := (zpow_lt_zpow_iff_right₀ (one_lt_two (α := ℚ))).1 (hlog.trans_lt hfirst)
    have hscale := scaleOf_eq hnum hden hlog hlog'
    exact ⟨m, -1074, by omega, rfl, hsame⟩
  · obtain ⟨hlow, hrounds⟩ := hfits.roundsOn_below he h hfirst
    have hscale := scaleOf_eq hnum hden hlow (by rwa [add_assoc])
    refine ⟨2 ^ 53, e - 1, by omega, ?_, hrounds⟩
    rw [hfits.eq_of_contains_lt he h hfirst]
    unfold magnitudeBits
    omega

/-- All numbers in the interval of a double are rounded to it. -/
theorem nearest_eq {num den m : Nat} {e : Int} (hden : 0 < den) (hfits : Fits m e)
    (h : (Interval.around m e).Contains (num / den)) :
    nearest num den = Float.ofBits (magnitudeBits m e).toUInt64 := by
  have hnum : 0 < num := by
    rw [div_eq_mul_inv] at h
    exact hfits.pos_of_contains_mul h
  obtain ⟨k, s, hscale, hbits, hbetween⟩ := exists_scale hnum hden hfits h
  unfold RoundsOn at hbetween
  rw [← quotient_scaled] at hbetween
  have hround := roundHalfEven_eq (Nat.mul_pos hden (power_pos (by decide) s)) hbetween
  unfold nearest
  simp only [hnum.ne', if_false, hscale, hround]
  change (if 2047 * 2 ^ 52 ≤ magnitudeBits k s then infinity
    else Float.ofBits (magnitudeBits k s).toUInt64) = _
  rw [hbits, if_neg hfits.magnitudeBits_lt.not_ge]

end StyledMap.Decimal
