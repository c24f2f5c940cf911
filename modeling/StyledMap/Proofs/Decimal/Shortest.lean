import StyledMap.Decimal.Shortest
import StyledMap.Proofs.Decimal.Parts
import StyledMap.Proofs.Decimal.Powers

/-! The digits found for a double belong to its interval. Points of the grid are compared with the
bounds as whole numbers, but on the same scale as the numbers they stand for, and at seventeen digits
the grid is finer than the interval is wide. -/
namespace StyledMap.Decimal

/-- `q` lies between two bounds, or is one of them if they belong to it. -/
def Between (closed : Bool) (low q high : ℚ) : Prop :=
  if closed then low ≤ q ∧ q ≤ high else low < q ∧ q < high

section
variable {closed : Bool} {low q high : ℚ}

theorem Between.le (h : Between closed low q high) : low ≤ q ∧ q ≤ high := by
  cases closed with
  | true => exact h
  | false => exact ⟨h.1.le, h.2.le⟩

theorem between_of_lt (hlow : low < q) (hhigh : q < high) : Between closed low q high := by
  cases closed with
  | true => exact ⟨hlow.le, hhigh.le⟩
  | false => exact ⟨hlow, hhigh⟩

theorem Between.mono {low' : ℚ} (h : Between closed low q high) (hl : low' ≤ low) :
    Between closed low' q high := by
  cases closed with
  | true => exact ⟨hl.trans h.1, h.2⟩
  | false => exact ⟨hl.trans_lt h.1, h.2⟩

theorem between_mul {k : ℚ} (hk : 0 < k) :
    Between closed (k * low) (k * q) (k * high) ↔ Between closed low q high := by
  simp only [Between, mul_lt_mul_iff_right₀ hk, mul_le_mul_iff_right₀ hk]

end

namespace Interval
variable (i : Interval)

/-- What a number on the interval's scale stands for. -/
def number (n : Nat) : ℚ := n * 2 ^ i.exponent

/-- The interval as a set of numbers. -/
def Contains (q : ℚ) : Prop := Between i.closed (i.number i.low) q (i.number i.high)

/-- The unit in which points and bounds are whole. -/
def unit (g : Int) : ℚ := (power 10 (-g) : Nat) * (power 2 (-i.exponent) : Nat)

theorem unit_pos (g : Int) : 0 < i.unit g := by
  have hten := power_pos (b := 10) (by decide) (-g)
  have htwo := power_pos (b := 2) (by decide) (-i.exponent)
  unfold unit
  positivity

theorem cast_scale (g : Int) (n : Nat) : (i.scale g n : ℚ) = i.unit g * i.number n := by
  have htwo := cast_power (b := 2) (by decide) i.exponent
  unfold scale unit number
  push_cast at htwo ⊢
  rw [htwo]
  ring

theorem cast_point (g : Int) (c : Nat) : ((c * i.step g : Nat) : ℚ) = i.unit g * (c * 10 ^ g) := by
  have hten := cast_power (b := 10) (by decide) g
  unfold step unit
  push_cast at hten ⊢
  rw [hten]
  ring

theorem inside_iff (g : Int) (c : Nat) : i.inside g c = true ↔ i.Contains (c * 10 ^ g) := by
  rw [Contains, ← between_mul (i.unit_pos g), ← cast_scale, ← cast_scale, ← cast_point]
  unfold inside Between
  split <;> simp only [Bool.and_eq_true, decide_eq_true_eq, Nat.cast_le, Nat.cast_lt]

variable {i}

/-- A point that is picked belongs to the interval. -/
theorem contains_of_pick {tie : Tie} {g : Int} {c : Nat} (h : i.pick tie g = some c) :
    i.Contains (c * 10 ^ g) := by
  rw [← inside_iff]
  have hnearer : i.nearer tie g = i.below g ∨ i.nearer tie g = i.below g + 1 := by
    unfold nearer
    dsimp only
    split
    · exact .inl rfl
    · split
      · exact .inr rfl
      · cases tie with
        | up => exact .inr rfl
        | even =>
          dsimp only
          split
          · exact .inl rfl
          · exact .inr rfl
  unfold pick at h
  split at h
  next hbelow habove =>
    obtain rfl := Option.some.inj h
    obtain hn | hn := hnearer <;> rwa [hn]
  next hbelow habove => obtain rfl := Option.some.inj h; exact hbelow
  next hbelow habove => obtain rfl := Option.some.inj h; exact habove
  next => cases h

theorem pick_isSome {tie : Tie} {g : Int}
    (h : i.Contains (i.below g * 10 ^ g) ∨ i.Contains ((i.below g + 1 : Nat) * 10 ^ g)) :
    (i.pick tie g).isSome := by
  rw [← inside_iff, ← inside_iff] at h
  unfold pick
  split
  · rfl
  · rfl
  · rfl
  next hbelow habove => simp [hbelow, habove] at h

/-- The value lies between the two points of the grid that are looked at. -/
theorem number_value_bounds (g : Int) :
    i.below g * 10 ^ g ≤ i.number i.value ∧
      i.number i.value < (i.below g + 1 : Nat) * 10 ^ g := by
  have hstep : 0 < i.step g := by
    have hpoint := i.cast_point g 1
    have hpos := i.unit_pos g
    have hcast : (0 : ℚ) < (1 * i.step g : Nat) := by
      rw [hpoint]
      positivity
    simpa using hcast
  have hlow : i.below g * i.step g ≤ i.scale g i.value := Nat.div_mul_le_self _ _
  have hhigh : i.scale g i.value < (i.below g + 1) * i.step g :=
    (Nat.div_lt_iff_lt_mul hstep).1 (Nat.lt_succ_self _)
  rw [← Nat.cast_le (α := ℚ), cast_point, cast_scale, mul_le_mul_iff_right₀ (i.unit_pos g)] at hlow
  rw [← Nat.cast_lt (α := ℚ), cast_point, cast_scale, mul_lt_mul_iff_right₀ (i.unit_pos g)] at hhigh
  exact ⟨hlow, hhigh⟩

/-- The search ends at a point that is picked, on a grid no finer than the last one. -/
theorem search_spec {tie : Tie} {g : Int} (left : Nat) (h : (i.pick tie (g - left)).isSome) :
    ∃ s, i.search tie g left = s ∧ i.pick tie s.exponent = some s.digits ∧ g - left ≤ s.exponent := by
  induction left generalizing g with
  | zero =>
    obtain ⟨c, hc⟩ := Option.isSome_iff_exists.1 h
    simp only [Nat.cast_zero, sub_zero] at hc
    exact ⟨_, rfl, by simp [search, hc], by simp [search]⟩
  | succ left ih =>
    rw [search]
    split
    next c hc => exact ⟨_, rfl, hc, by dsimp only; omega⟩
    next =>
      have hlast : g - (left + 1 : Nat) = g - 1 - left := by omega
      rw [hlast] at h ⊢
      exact ih h

/-- What the bounds of the interval of `m * 2 ^ e` are; a quarter below a power of two, else a half. -/
theorem around_bounds {m : Nat} (e : Int) (hm : 0 < m) :
    (around m e).number (around m e).low =
        (m - if m = 2 ^ 52 ∧ -1074 < e then 1 / 4 else 1 / 2) * 2 ^ e ∧
      (around m e).number (around m e).value = m * 2 ^ e ∧
      (around m e).number (around m e).high = (m + 1 / 2) * 2 ^ e := by
  have hquarter : (2 : ℚ) ^ (e - 2) = 2 ^ e / 4 := by
    rw [zpow_sub₀ two_ne_zero]
    norm_num
  unfold number around
  dsimp only
  rw [hquarter]
  refine ⟨?_, by push_cast; ring, by push_cast; ring⟩
  split
  · rw [Nat.cast_sub (by omega)]
    push_cast
    ring
  · rw [Nat.cast_sub (by omega)]
    push_cast
    ring

/-- A grid of steps of at most `10⁻¹⁶` of the value has a point in the interval. -/
theorem around_pick_isSome {m : Nat} {e g : Int} (tie : Tie) (h : Fits m e)
    (hg : (10 : ℚ) ^ g * 10 ^ 16 ≤ m * 2 ^ e) : ((around m e).pick tie g).isSome := by
  obtain ⟨hbelow, habove⟩ := (around m e).number_value_bounds g
  obtain ⟨hlow, hvalue, hhigh⟩ := around_bounds e h.pos
  have hpos : (0 : ℚ) < 2 ^ e := by positivity
  have hm : (m : ℚ) * 2 ^ e < 2 ^ 53 * 2 ^ e :=
    mul_lt_mul_of_pos_right (by exact_mod_cast h.bits) hpos
  rw [hvalue] at hbelow habove
  apply pick_isSome
  unfold Contains
  rw [hlow, hhigh]
  by_contra hnone
  obtain ⟨hnone, hnone'⟩ := not_or.1 hnone
  -- with neither point inside, the step would be as wide as the interval
  have hleft : ((around m e).below g : ℚ) * 10 ^ g ≤
      (m - if m = 2 ^ 52 ∧ -1074 < e then 1 / 4 else 1 / 2) * 2 ^ e := by
    by_contra hin
    exact hnone (between_of_lt (not_le.1 hin) (by linarith))
  have hright : (m + 1 / 2) * 2 ^ e ≤ (((around m e).below g + 1 : Nat) : ℚ) * 10 ^ g := by
    by_contra hin
    refine hnone' (between_of_lt ?_ (not_le.1 hin))
    split <;> linarith
  push_cast at hright
  split at hleft
  next hpower =>
    rw [hpower.1] at hleft hright hg
    push_cast at hleft hright hg
    linarith
  next => linarith

end Interval

/-- The first digit found is not too far up. -/
theorem ten_zpow_leadingExponent_le (num den : Nat) (hnum : 0 < num) (hden : 0 < den)
    (hleast : -2862 ≤ (num.log2 : Int) - den.log2) :
    (10 : ℚ) ^ leadingExponent num den ≤ num / den := by
  have hdenpos : (0 : ℚ) < den := by positivity
  have hreaches (e : Int) : power 10 e * den ≤ num * power 10 (-e) → (10 : ℚ) ^ e ≤ num / den := by
    intro h
    have hten := cast_power (b := 10) (by decide) e
    have hpos : (0 : ℚ) < power 10 (-e) := Nat.cast_pos.2 (power_pos (by decide) _)
    rw [← Nat.cast_le (α := ℚ), Nat.cast_mul, Nat.cast_mul, hten] at h
    rw [le_div_iff₀ hdenpos]
    apply le_of_mul_le_mul_right _ hpos
    push_cast at h
    linarith
  unfold leadingExponent
  simp only [decide_eq_true_eq]
  split
  next h => exact hreaches _ h
  next =>
    split
    next h => exact hreaches _ h
    next => exact (ten_zpow_sub_one_le hleast (by omega)).trans (zpow_le_div hnum hden)

theorem le_leadingExponent (num den : Nat) :
    ((num.log2 : Int) - den.log2) * 1233 / 4096 - 1 ≤ leadingExponent num den := by
  unfold leadingExponent
  dsimp only
  split
  · omega
  · split <;> omega

theorem log2_quotient {m : Nat} (hm : 0 < m) (e : Int) :
    ((m * power 2 e).log2 : Int) - (power 2 (-e)).log2 = m.log2 + e := by
  have hvalue := quotient_eq (b := 2) (by decide) m e
  rw [Nat.cast_ofNat] at hvalue
  have hpos : 0 < m * power 2 e := Nat.mul_pos hm (power_pos (by decide) e)
  have hlog : (power 2 (-e)).log2 = (-e).toNat := Nat.log2_two_pow
  have hcast : ((m * power 2 e : Nat) : ℚ) * 2 ^ (-((-e).toNat : Int)) = m * 2 ^ e := by
    rw [← hvalue, zpow_neg, zpow_natCast, div_eq_mul_inv]
    simp [power]
  have heq := log2_add_eq hpos hm hcast
  rw [hlog]
  omega

/-- The digits found for a double belong to its interval, and their exponent has a lower bound. -/
theorem shortest_spec {m : Nat} {e : Int} (tie : Tie) (h : Fits m e) :
    (Interval.around m e).Contains ((shortest tie m e).digits * 10 ^ (shortest tie m e).exponent) ∧
      -400 ≤ (shortest tie m e).exponent := by
  obtain ⟨g, hg⟩ : ∃ g, g = leadingExponent (m * power 2 e) (power 2 (-e)) := ⟨_, rfl⟩
  have hlog := log2_quotient h.pos e
  have hleast := h.least
  have hlead := le_leadingExponent (m * power 2 e) (power 2 (-e))
  have hten := ten_zpow_leadingExponent_le (m * power 2 e) (power 2 (-e))
    (Nat.mul_pos h.pos (power_pos (by decide) e)) (power_pos (by decide) (-e)) (by omega)
  rw [quotient_eq (by decide), Nat.cast_ofNat, ← hg] at hten
  rw [hlog, ← hg] at hlead
  have hstep : (10 : ℚ) ^ (g - 16) * 10 ^ 16 ≤ m * 2 ^ e := by
    rwa [← zpow_natCast, ← zpow_add₀ (by norm_num), Nat.cast_ofNat, sub_add_cancel]
  obtain ⟨s, hs, hpick, hexp⟩ :=
    Interval.search_spec 16 (Interval.around_pick_isSome tie h hstep)
  have hin := Interval.contains_of_pick hpick
  unfold shortest
  dsimp only
  rw [← hg, hs]
  split
  next hzero =>
    -- a final zero moves into the exponent
    have hvalue : ((s.digits / 10 : Nat) : ℚ) * 10 ^ (s.exponent + 1) = s.digits * 10 ^ s.exponent := by
      have hdigits : s.digits = 10 * (s.digits / 10) := by omega
      rw [zpow_add₀ (by norm_num)]
      nth_rewrite 2 [hdigits]
      push_cast
      ring
    rw [hvalue]
    exact ⟨hin, by dsimp only; omega⟩
  next => exact ⟨hin, by omega⟩

end StyledMap.Decimal
