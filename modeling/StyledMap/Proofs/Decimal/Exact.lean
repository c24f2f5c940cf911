import StyledMap.Proofs.Decimal.Nearest

/-! Exact arithmetic on doubles. Sums, differences, products and quotients of doubles are exact
wherever the exact number is one that a double can have, and so are the doubles of whole numbers below
`2 ^ 53`. A formula of such steps gives a double for the number it stands for. -/
namespace StyledMap.Decimal
open Float.Model
open Float.Model.UnpackedFloat

/-- A number that a finite double can have. -/
def Representable (q : ℚ) : Prop :=
  ∃ k f : Int, q = k * 2 ^ f ∧ |k| < 2 ^ 53 ∧ -1074 ≤ f ∧ f ≤ 971

theorem Representable.neg {q : ℚ} (h : Representable q) : Representable (-q) := by
  obtain ⟨k, f, rfl, hk, hf⟩ := h
  exact ⟨-k, f, by simp, by rwa [abs_neg], hf⟩

theorem representable_factor {s : Sign} {q : ℚ} : Representable (factor s * q) ↔ Representable q := by
  cases s with
  | positive => simp [factor]
  | negative =>
    simp only [factor, neg_mul, one_mul]
    exact ⟨fun h => by simpa using h.neg, Representable.neg⟩

theorem targetExponent_eq (m : Nat) (e : Int) :
    Format.binary64.targetExponent (totalExponent m e) = max (m.log2 + e - 52) (-1074) := by
  have hbits : (Format.binary64.mantissaBits : Int) = 53 := rfl
  have hmin : Format.binary64.minExponent = -1074 := rfl
  unfold Format.targetExponent totalExponent
  rw [hbits, hmin]
  congr 1
  omega

/-- Shifting out zeros loses nothing. -/
theorem shiftRight_mul_two_pow (c n : Nat) :
    (⟨c * 2 ^ n, false, false⟩ : ExtendedMantissa) >>> n = ⟨c, false, false⟩ := by
  change Nat.repeat ExtendedMantissa.shiftRightOne n ⟨c * 2 ^ n, false, false⟩ = _
  induction n generalizing c with
  | zero => simp [Nat.repeat]
  | succ n ih =>
    have hc : c * 2 ^ (n + 1) = 2 * c * 2 ^ n := by ring
    rw [Nat.repeat, hc, ih]
    simp [ExtendedMantissa.shiftRightOne]

theorem shiftToTargetExponent_eq (c n : Nat) (e : Int)
    (h : max ((c * 2 ^ n).log2 + e - 52) (-1074) = e + n) :
    shiftToTargetExponent Format.binary64 (c * 2 ^ n) e .exact = (⟨c, false, false⟩, e + n) := by
  unfold shiftToTargetExponent shiftToExponent
  simp only [targetExponent_eq, h, add_sub_cancel_left, Int.toNat_natCast,
    ExtendedMantissa.ofMantissaAndAccuracy, shiftRight_mul_two_pow]

theorem Fits.target {m : Nat} {e : Int} (h : Fits m e) : max ((m.log2 : Int) + e - 52) (-1074) = e := by
  obtain ⟨hpos, hbits, hleast, hmost, hfull⟩ := h
  have hlt : m.log2 < 53 := (Nat.log2_lt hpos.ne').2 hbits
  rw [← Nat.le_log2 hpos.ne'] at hfull
  omega

/-- Positive numbers that a double can have are such by a positive whole number. -/
theorem Representable.exists_nat {q : ℚ} (h : Representable q) (hq : 0 < q) :
    ∃ k : Nat, ∃ f : Int, q = k * 2 ^ f ∧ 0 < k ∧ k < 2 ^ 53 ∧ -1074 ≤ f ∧ f ≤ 971 := by
  obtain ⟨k, f, rfl, hlt, hf⟩ := h
  have hpos : 0 < k := by
    exact_mod_cast pos_of_mul_pos_left hq (by positivity)
  obtain ⟨k, rfl⟩ := Int.eq_ofNat_of_zero_le hpos.le
  rw [Nat.abs_cast] at hlt
  exact ⟨k, f, by simp, by omega, by exact_mod_cast hlt, hf⟩

/-- Of a representable number the digits that do not fit are zeros. -/
theorem exists_fits {m : Nat} {e : Int} (hm : 0 < m) (he : e ≤ max (m.log2 + e - 52) (-1074))
    (h : Representable (m * 2 ^ e)) :
    ∃ c n : Nat, m = c * 2 ^ n ∧ max ((m.log2 : Int) + e - 52) (-1074) = e + n ∧ Fits c (e + n) := by
  obtain ⟨k, f, hk, hpos, hbits, hleast, hmost⟩ := h.exists_nat (by positivity)
  have hlog := log2_add_eq hm hpos hk
  have hk53 : k.log2 < 53 := (Nat.log2_lt hpos.ne').2 hbits
  obtain ⟨n, hn⟩ : ∃ n : Nat, max ((m.log2 : Int) + e - 52) (-1074) = e + n :=
    ⟨(max ((m.log2 : Int) + e - 52) (-1074) - e).toNat, by omega⟩
  obtain ⟨j, rfl⟩ : ∃ j : Nat, f = e + n + j := ⟨(f - (e + n)).toNat, by omega⟩
  have hfactor : m = k * 2 ^ j * 2 ^ n := by
    have hcast : (m : ℚ) = (k * 2 ^ j * 2 ^ n : Nat) := by
      have htwo : (2 : ℚ) ^ e ≠ 0 := by positivity
      apply mul_right_cancel₀ htwo
      rw [hk, zpow_add₀ two_ne_zero, zpow_add₀ two_ne_zero, zpow_natCast, zpow_natCast]
      push_cast
      ring
    exact_mod_cast hcast
  have hc : 0 < k * 2 ^ j := by positivity
  have hclog : ((k * 2 ^ j).log2 : Int) + (e + n) = m.log2 + e := by
    apply log2_add_eq hc hm
    rw [hfactor, zpow_add₀ two_ne_zero, zpow_natCast]
    push_cast
    ring
  refine ⟨k * 2 ^ j, n, hfactor, hn, hc, ?_, by omega, by omega, ?_⟩
  · exact (Nat.log2_lt hc.ne').1 (by omega)
  · rw [← Nat.le_log2 hc.ne']
    omega

/-- Rounding leaves what is representable as it is. -/
theorem stands_roundWithAccuracy (s : Sign) {m : Nat} {e : Int} (hm : 0 < m)
    (he : e ≤ max (m.log2 + e - 52) (-1074)) (h : Representable (m * 2 ^ e)) :
    Stands (roundWithAccuracy Format.binary64 s m e .exact) (factor s * (m * 2 ^ e)) := by
  obtain ⟨c, n, rfl, htarget, hfits⟩ := exists_fits hm he h
  have hfirst := shiftToTargetExponent_eq c n e htarget
  have hsecond : shiftToTargetExponent Format.binary64 c (e + n) .exact =
      (⟨c, false, false⟩, e + n) := by
    simpa using shiftToTargetExponent_eq c 0 (e + n) (by simpa using hfits.target)
  have hround : roundWithAccuracy Format.binary64 s (c * 2 ^ n) e .exact =
      .finite s c (e + n) hfits.pos := by
    unfold roundWithAccuracy
    simp only [hfirst, ExtendedMantissa.roundedMantissa, ExtendedMantissa.accuracy,
      Accuracy.roundToNearestEven, hsecond]
    rw [dif_neg hfits.pos.ne']
  rw [hround, stands_finite]
  refine ⟨hfits, ?_⟩
  rw [zpow_add₀ two_ne_zero, zpow_natCast]
  push_cast
  ring

theorem cast_shiftLeft (m n : Nat) (e : Int) :
    ((m <<< n : Nat) : ℚ) * 2 ^ (e - n) = m * 2 ^ e := by
  rw [Nat.shiftLeft_eq, zpow_sub₀ two_ne_zero, zpow_natCast]
  push_cast
  field_simp

theorem shiftLeft_pos {m : Nat} (hm : 0 < m) (n : Nat) : 0 < m <<< n := by
  rw [Nat.shiftLeft_eq]
  positivity

theorem stands_round (s : Sign) {m : Nat} {e : Int} (hm : 0 < m) (h : Representable (m * 2 ^ e)) :
    Stands (UnpackedFloat.round Format.binary64 s m e) (factor s * (m * 2 ^ e)) := by
  obtain ⟨n, hn⟩ : ∃ n : Nat, n = (e - max ((m.log2 : Int) + e - 52) (-1074)).toNat := ⟨_, rfl⟩
  have hvalue := cast_shiftLeft m n e
  have hpos := shiftLeft_pos hm n
  have hlog := log2_add_eq hpos hm hvalue
  have hround := stands_roundWithAccuracy s hpos (e := e - n) (by omega) (by rwa [hvalue])
  rw [hvalue] at hround
  unfold UnpackedFloat.round decreaseExponent
  simpa only [targetExponent_eq, ← hn] using hround

/-- An exact sum or difference, before it is put into 53 bits. -/
theorem stands_normalize {m : Int} {e : Int} (zeroSign : Sign) (h : Representable (m * 2 ^ e)) :
    Stands (UnpackedFloat.normalize Format.binary64 m e zeroSign) (m * 2 ^ e) := by
  unfold UnpackedFloat.normalize
  obtain hm | rfl | hm := lt_trichotomy m 0
  · obtain ⟨k, rfl⟩ : ∃ k : Nat, m = -k := ⟨m.natAbs, by omega⟩
    rw [Int.compare_eq_lt.2 hm]
    have hround := stands_round .negative (m := k) (e := e) (by omega) (by simpa using h.neg)
    simpa [factor] using hround
  · simp
  · obtain ⟨k, rfl⟩ : ∃ k : Nat, m = k := ⟨m.natAbs, by omega⟩
    rw [Int.compare_eq_gt.2 hm]
    have hround := stands_round .positive (m := k) (e := e) (by omega) (by simpa using h)
    simpa [factor] using hround

section
variable {u v : UnpackedFloat} {p q : ℚ}

theorem Stands.mul (hu : Stands u p) (hv : Stands v q) (h : Representable (p * q)) :
    Stands (UnpackedFloat.mul Format.binary64 u v) (p * q) := by
  cases hu with
  | zero s => cases hv with
    | zero t | finite t hk => simp [UnpackedFloat.mul]
  | @finite s m e hm => cases hv with
    | zero t => simp [UnpackedFloat.mul]
    | @finite t k f hk =>
      have hvalue : factor s * (m * 2 ^ e) * (factor t * (k * 2 ^ f)) =
          factor (s * t) * ((m * k : Nat) * 2 ^ (e + f)) := by
        rw [factor_mul, zpow_add₀ two_ne_zero]
        push_cast
        ring
      have hpos : 0 < m * k := Nat.mul_pos hm.pos hk.pos
      have hfull : 52 ≤ (m * k).log2 ∨ e + f ≤ -1074 := by
        rw [Nat.le_log2 hpos.ne']
        obtain hm52 | he := hm.full
        · exact .inl (hm52.trans (Nat.le_mul_of_pos_right m hk.pos))
        · obtain hk52 | hf := hk.full
          · exact .inl (hk52.trans (Nat.le_mul_of_pos_left k hm.pos))
          · exact .inr (by omega)
      rw [hvalue, representable_factor] at h
      rw [hvalue]
      exact stands_roundWithAccuracy (s * t) hpos (by omega) h

theorem Stands.neg (hu : Stands u p) : Stands (UnpackedFloat.neg u) (-p) := by
  cases hu with
  | zero s => simp [UnpackedFloat.neg]
  | finite s hm => simpa [UnpackedFloat.neg, factor_neg] using hm

theorem Stands.add (hu : Stands u p) (hv : Stands v q) (h : Representable (p + q)) :
    Stands (UnpackedFloat.add Format.binary64 u v) (p + q) := by
  cases hu with
  | zero s => cases hv with
    | zero t =>
      simp only [UnpackedFloat.add]
      split <;> simp
    | finite t hk => simpa [UnpackedFloat.add] using hk
  | @finite s m e hm => cases hv with
    | zero t => simpa [UnpackedFloat.add] using hm
    | @finite t k f hk =>
      -- both are brought to the lesser exponent, where adding is adding whole numbers
      have halign (c : Nat) (g : Int) (hg : min e f ≤ g) :
          ((c <<< (g - min e f).toNat : Nat) : ℚ) * 2 ^ min e f = c * 2 ^ g := by
        have hshift := cast_shiftLeft c (g - min e f).toNat g
        rwa [Int.toNat_of_nonneg (by omega), sub_sub_cancel] at hshift
      have hvalue : factor s * (m * 2 ^ e) + factor t * (k * 2 ^ f) =
          ((s.apply (m <<< (e - min e f).toNat : Nat) +
            t.apply (k <<< (f - min e f).toNat : Nat) : Int) : ℚ) * 2 ^ min e f := by
        rw [← halign m e (min_le_left e f), ← halign k f (min_le_right e f), Int.cast_add,
          cast_apply, cast_apply]
        ring
      rw [hvalue] at h ⊢
      exact stands_normalize .positive h

theorem unpacked_sub_eq : UnpackedFloat.sub Format.binary64 u v =
    UnpackedFloat.add Format.binary64 u (UnpackedFloat.neg v) := by
  have happly (s : Sign) (n : Nat) : (-s).apply n = -s.apply n := by cases s <;> simp [Sign.apply]
  cases u <;> cases v <;>
    simp [UnpackedFloat.sub, UnpackedFloat.add, UnpackedFloat.neg, happly, Int.sub_eq_add_neg]

theorem Stands.sub (hu : Stands u p) (hv : Stands v q) (h : Representable (p - q)) :
    Stands (UnpackedFloat.sub Format.binary64 u v) (p - q) := by
  rw [unpacked_sub_eq]
  rw [sub_eq_add_neg] at h ⊢
  exact hu.add hv.neg h

theorem log2_mul_le {r k : Nat} (hr : 0 < r) (hk : 0 < k) :
    (r * k).log2 ≤ r.log2 + k.log2 + 1 := by
  have hlt : r * k < 2 ^ (r.log2 + 1) * 2 ^ (k.log2 + 1) :=
    Nat.mul_lt_mul'' Nat.lt_log2_self Nat.lt_log2_self
  rw [← Nat.pow_add, ← Nat.log2_lt (Nat.mul_pos hr hk).ne'] at hlt
  omega

/-- An exact quotient has as many digits as it needs after the last one of the dividend. -/
theorem divCore_eq {m k : Nat} {e f : Int} (hm : Fits m e) (hk : Fits k f)
    (h : Representable (m * 2 ^ e / (k * 2 ^ f))) :
    ∃ (c : Nat) (g : Int), divCore Format.binary64 m e k f = (c, g, .exact) ∧ 0 < c ∧
      g ≤ max ((c.log2 : Int) + g - 52) (-1074) ∧
      (c : ℚ) * 2 ^ g = m * 2 ^ e / (k * 2 ^ f) := by
  have hmpos := hm.pos
  have hkpos := hk.pos
  obtain ⟨r, i, hr, hrpos, hrbits, hleast, hmost⟩ := h.exists_nat (by positivity)
  have hproduct : (m : ℚ) * 2 ^ e = (r * k : Nat) * 2 ^ (i + f) := by
    rw [div_eq_iff (by positivity)] at hr
    rw [hr, zpow_add₀ two_ne_zero]
    push_cast
    ring
  have hlog := log2_add_eq hmpos (Nat.mul_pos hrpos hkpos) hproduct
  have hlogmul := log2_mul_le hrpos hkpos
  have hr53 : r.log2 < 53 := (Nat.log2_lt hrpos.ne').2 hrbits
  obtain ⟨g, hg⟩ : ∃ g : Int,
      g = min (e - f) (max ((m.log2 : Int) - k.log2 + e - f - 53) (-1074)) := ⟨_, rfl⟩
  have htarget : Format.binary64.targetExponent (totalExponent m e - totalExponent k f) =
      max ((m.log2 : Int) - k.log2 + e - f - 53) (-1074) := by
    have hbits : (Format.binary64.mantissaBits : Int) = 53 := rfl
    have hmin : Format.binary64.minExponent = -1074 := rfl
    unfold Format.targetExponent totalExponent
    rw [hbits, hmin]
    congr 1
    omega
  obtain ⟨j, rfl⟩ : ∃ j : Nat, i = g + j := ⟨(i - g).toNat, by omega⟩
  obtain ⟨n, hn⟩ : ∃ n : Nat, e - f - g = n := ⟨(e - f - g).toNat, by omega⟩
  have hshift : m <<< n = r * 2 ^ j * k := by
    have hcast := cast_shiftLeft m n e
    have hexp : e - n = g + f := by omega
    have hfactor : (2 : ℚ) ^ (g + j + f) = 2 ^ j * 2 ^ (g + f) := by
      rw [add_right_comm, zpow_add₀ two_ne_zero, zpow_natCast, mul_comm]
    rw [hexp, hproduct, hfactor, ← mul_assoc] at hcast
    have hdigits := mul_right_cancel₀ (by positivity) hcast
    have heq : m <<< n = r * k * 2 ^ j := by exact_mod_cast hdigits
    rw [heq, Nat.mul_right_comm]
  have hvalue : ((r * 2 ^ j : Nat) : ℚ) * 2 ^ g = r * 2 ^ (g + j) := by
    rw [zpow_add₀ two_ne_zero, zpow_natCast]
    push_cast
    ring
  have hc : 0 < r * 2 ^ j := by positivity
  have hclog := log2_add_eq hc hrpos hvalue
  refine ⟨r * 2 ^ j, g, ?_, hc, by omega, hvalue.trans hr.symm⟩
  unfold divCore
  simp only [htarget, ← hg, hn, Int.toNat_natCast, hshift, Nat.mul_div_left _ hkpos,
    Nat.mul_mod_left]
  rfl

theorem Stands.div (hu : Stands u p) (hv : Stands v q) (hq : q ≠ 0) (h : Representable (p / q)) :
    Stands (UnpackedFloat.div Format.binary64 u v) (p / q) := by
  cases hv with
  | zero t => exact absurd rfl hq
  | @finite t k f hk => cases hu with
    | zero s => simp [UnpackedFloat.div]
    | @finite s m e hm =>
      have hvalue : factor s * (m * 2 ^ e) / (factor t * (k * 2 ^ f)) =
          factor (s / t) * (m * 2 ^ e / (k * 2 ^ f)) := by
        rw [factor_div, mul_div_mul_comm]
      rw [hvalue, representable_factor] at h
      obtain ⟨c, g, hdiv, hc, hg, hcg⟩ := divCore_eq hm hk h
      rw [hvalue]
      simp only [UnpackedFloat.div, hdiv]
      rw [← hcg] at h ⊢
      exact stands_roundWithAccuracy (s / t) hc hg h

end

section
variable {x y : Float} {p q : ℚ}

theorem number?_mul (hx : number? x = some p) (hy : number? y = some q) (h : Representable (p * q)) :
    number? (x * y) = some (p * q) :=
  number?_pack ((number?_eq_some.1 hx).mul (number?_eq_some.1 hy) h)

theorem number?_add (hx : number? x = some p) (hy : number? y = some q) (h : Representable (p + q)) :
    number? (x + y) = some (p + q) :=
  number?_pack ((number?_eq_some.1 hx).add (number?_eq_some.1 hy) h)

theorem number?_sub (hx : number? x = some p) (hy : number? y = some q) (h : Representable (p - q)) :
    number? (x - y) = some (p - q) :=
  number?_pack ((number?_eq_some.1 hx).sub (number?_eq_some.1 hy) h)

theorem number?_div (hx : number? x = some p) (hy : number? y = some q) (hq : q ≠ 0)
    (h : Representable (p / q)) : number? (x / y) = some (p / q) :=
  number?_pack ((number?_eq_some.1 hx).div (number?_eq_some.1 hy) hq h)

end

/-- A positive whole number of 53 bits, shifted up to have 53 of them. -/
theorem fits_shifted {n : Nat} (hpos : 0 < n) (hn : n < 2 ^ 53) :
    Fits (n * 2 ^ (52 - n.log2)) (-(52 - n.log2 : Nat)) := by
  have hlog : n.log2 < 53 := (Nat.log2_lt hpos.ne').2 hn
  have hlow : 2 ^ n.log2 * 2 ^ (52 - n.log2) ≤ n * 2 ^ (52 - n.log2) :=
    Nat.mul_le_mul_right _ (Nat.log2_self_le hpos.ne')
  have hhigh : n * 2 ^ (52 - n.log2) < 2 ^ (n.log2 + 1) * 2 ^ (52 - n.log2) :=
    Nat.mul_lt_mul_of_pos_right Nat.lt_log2_self (by positivity)
  have hsum : n.log2 + (52 - n.log2) = 52 := by omega
  have hsucc : n.log2 + 1 + (52 - n.log2) = 53 := by omega
  rw [← Nat.pow_add, hsum] at hlow
  rw [← Nat.pow_add, hsucc] at hhigh
  exact ⟨by positivity, hhigh, by omega, by omega, .inl hlow⟩

/-- Whole numbers of 53 bits are doubles. -/
theorem number?_nearest {n : Nat} (hn : n < 2 ^ 53) : number? (nearest n 1) = some (n : ℚ) := by
  obtain rfl | hpos := Nat.eq_zero_or_pos n
  · rw [nearest, if_pos rfl, number?_eq_some]
    exact .zero .positive
  have hfits := fits_shifted hpos hn
  have hvalue : ((n * 2 ^ (52 - n.log2) : Nat) : ℚ) * 2 ^ (-(52 - n.log2 : Nat) : Int) = n := by
    rw [zpow_neg, zpow_natCast]
    push_cast
    field_simp
  have hin := hfits.contains
  rw [hvalue, ← div_one (n : ℚ), ← Nat.cast_one] at hin
  rw [nearest_eq one_pos hfits hin, number?, ofFloat_magnitudeBits hfits, Binary64.number?, hvalue]
  simp

/-- The four operations. -/
inductive Operation where
  | add
  | sub
  | mul
  | div

section
variable {α : Type} [Add α] [Sub α] [Mul α] [Div α]

def Operation.apply : Operation → α → α → α
  | .add => (· + ·)
  | .sub => (· - ·)
  | .mul => (· * ·)
  | .div => (· / ·)

/-- What is computed from whole numbers. -/
inductive Formula where
  | num (n : Nat)
  | op (o : Operation) (a b : Formula)

/-- The value over any numbers, `num` telling how whole ones are written in them. -/
def Formula.value (num : Nat → α) : Formula → α
  | .num n => num n
  | .op o a b => o.apply (a.value num) (b.value num)

end

namespace Formula

def exact (f : Formula) : ℚ := f.value Nat.cast

def double (f : Formula) : Float := f.value (nearest · 1)

/-- All that is computed on the way, in order, and the formula itself. -/
def parts : Formula → List Formula
  | .num n => [.num n]
  | .op o a b => a.parts ++ b.parts ++ [.op o a b]

/-- Nothing is divided by zero. -/
def Defined : Formula → Prop
  | .num _ => True
  | .op o a b => a.Defined ∧ b.Defined ∧ (o = .div → b.exact ≠ 0)

@[simp] theorem exact_num (n : Nat) : (num n).exact = n := rfl

@[simp] theorem exact_op (o : Operation) (a b : Formula) :
    (op o a b).exact = o.apply a.exact b.exact := rfl

theorem mem_parts_self (f : Formula) : f ∈ f.parts := by
  cases f <;> simp [parts]

end Formula

theorem number?_apply {x y : Float} {p q : ℚ} (o : Operation) (hx : number? x = some p)
    (hy : number? y = some q) (hq : o = .div → q ≠ 0) (h : Representable (o.apply p q)) :
    number? (o.apply x y) = some (o.apply p q) := by
  cases o with
  | add => exact number?_add hx hy h
  | sub => exact number?_sub hx hy h
  | mul => exact number?_mul hx hy h
  | div => exact number?_div hx hy (hq rfl) h

/-- A number of at most 53 binary digits, `z` of them after the point. -/
def Dyadic (z : Nat) (q : ℚ) : Prop := ∃ k : Int, q = k / 2 ^ z ∧ |k| < 2 ^ 53

theorem Dyadic.representable {z : Nat} {q : ℚ} (hz : z ≤ 1074) (h : Dyadic z q) :
    Representable q := by
  obtain ⟨k, rfl, hk⟩ := h
  exact ⟨k, -z, by rw [zpow_neg, zpow_natCast, div_eq_mul_inv], hk, by omega, by omega⟩

theorem dyadic_natCast {z n : Nat} : Dyadic z n ↔ n * 2 ^ z < 2 ^ 53 := by
  constructor
  · rintro ⟨k, hk, hlt⟩
    rw [eq_div_iff (by positivity)] at hk
    have hdigits : k = (n * 2 ^ z : Nat) := by exact_mod_cast hk.symm
    rw [hdigits, Nat.abs_cast] at hlt
    exact_mod_cast hlt
  · intro h
    refine ⟨(n * 2 ^ z : Nat), ?_, by rw [Nat.abs_cast]; exact_mod_cast h⟩
    rw [eq_div_iff (by positivity)]
    push_cast
    rfl

/-- Of a formula whose parts all have few digits, the doubles of all parts are exact. -/
theorem Formula.number?_double {z : Nat} (hz : z ≤ 1074) {f : Formula} (hdef : f.Defined)
    (h : ∀ s ∈ f.parts, Dyadic z s.exact) : ∀ s ∈ f.parts, number? s.double = some s.exact := by
  induction f with
  | num n =>
    have hn : n * 2 ^ z < 2 ^ 53 := dyadic_natCast.1 (h _ (mem_parts_self _))
    have hlt : n < 2 ^ 53 := lt_of_le_of_lt (Nat.le_mul_of_pos_right n (by positivity)) hn
    intro s hs
    rw [parts, List.mem_singleton] at hs
    rw [hs]
    exact number?_nearest hlt
  | op o a b iha ihb =>
    obtain ⟨hdefa, hdefb, hdiv⟩ := hdef
    have hself := (h _ (mem_parts_self _)).representable hz
    simp only [parts, List.forall_mem_append, List.forall_mem_singleton] at h ⊢
    have ha := iha hdefa h.1.1
    have hb := ihb hdefb h.1.2
    exact ⟨⟨ha, hb⟩,
      number?_apply o (ha a a.mem_parts_self) (hb b b.mem_parts_self) hdiv hself⟩

end StyledMap.Decimal
