import Mathlib
import StyledMap.Decimal.Binary64

/-! What doubles stand for. A finite double is a whole number of at most 53 bits times a power of
two, negated or not. Its bits and its parts, as arithmetic has them, stand for the same number. -/
namespace StyledMap.Decimal
open Float.Model
open Float.Model.UnpackedFloat

/-- The number that a double stands for, unless it is infinite or no number. -/
def Binary64.number? : Binary64 → Option ℚ
  | .finite negative m e => some ((if negative then -1 else 1) * (m * 2 ^ e))
  | .infinite _ | .nan => none

def number? (x : Float) : Option ℚ := (Binary64.ofFloat x).number?

/-- What the parts of a double have to be: 53 bits, fewer only under the least exponent. -/
structure Fits (m : Nat) (e : Int) : Prop where
  pos : 0 < m
  bits : m < 2 ^ 53
  least : -1074 ≤ e
  most : e ≤ 971
  full : 2 ^ 52 ≤ m ∨ e = -1074

def isNegative : Sign → Bool
  | .negative => true
  | .positive => false

/-- A sign as a factor. -/
def factor : Sign → ℚ
  | .negative => -1
  | .positive => 1

theorem factor_mul (s t : Sign) : factor (s * t) = factor s * factor t := by
  cases s <;> cases t <;> norm_num [factor]

theorem factor_div (s t : Sign) : factor (s / t) = factor s / factor t := by
  have hmul : s / t = s * t := by cases s <;> cases t <;> rfl
  rw [hmul, factor_mul]
  cases s <;> cases t <;> norm_num [factor]

theorem factor_neg (s : Sign) : factor (-s) = -factor s := by
  cases s <;> norm_num [factor]

theorem factor_eq (s : Sign) : factor s = if isNegative s then -1 else 1 := by
  cases s <;> rfl

theorem cast_apply (s : Sign) (n : Nat) : ((s.apply n : Int) : ℚ) = factor s * n := by
  cases s <;> simp [factor, Sign.apply]

/-- A finite double in parts, and its number. -/
inductive Stands : UnpackedFloat → ℚ → Prop where
  | zero (s : Sign) : Stands (.zero s) 0
  | finite (s : Sign) {m : Nat} {e : Int} (h : Fits m e) :
      Stands (.finite s m e h.pos) (factor s * (m * 2 ^ e))

@[simp] theorem stands_zero {s : Sign} {p : ℚ} : Stands (.zero s) p ↔ p = 0 := by
  constructor
  · rintro ⟨⟩
    rfl
  · rintro rfl
    exact .zero s

@[simp] theorem stands_finite {s : Sign} {m : Nat} {e : Int} {h : 0 < m} {p : ℚ} :
    Stands (.finite s m e h) p ↔ Fits m e ∧ p = factor s * (m * 2 ^ e) := by
  constructor
  · rintro (_ | ⟨s, hfits⟩)
    exact ⟨hfits, rfl⟩
  · rintro ⟨hfits, rfl⟩
    exact .finite s hfits

@[simp] theorem not_stands_infinity {s : Sign} {p : ℚ} : ¬ Stands (.infinity s) p := by
  rintro ⟨⟩

@[simp] theorem not_stands_notANumber {p : ℚ} : ¬ Stands .notANumber p := by
  rintro ⟨⟩

/-- A double taken apart by its bits. -/
def Binary64.ofBits (bits : Nat) : Binary64 :=
  let negative := decide (2 ^ 63 ≤ bits)
  let field : Nat := bits / 2 ^ 52 % 2 ^ 11
  let fraction : Nat := bits % 2 ^ 52
  if field = 2047 then (if fraction = 0 then .infinite negative else .nan)
  else if field = 0 then .finite negative fraction (-1074)
  else .finite negative (2 ^ 52 + fraction) ((field : Int) - 1075)

theorem Binary64.ofFloat_eq (x : Float) : ofFloat x = ofBits x.toBits.toNat := rfl

/-- A double taken apart by its parts in arithmetic. -/
def Binary64.ofUnpacked : UnpackedFloat → Binary64
  | .notANumber => .nan
  | .infinity s => .infinite (isNegative s)
  | .zero s => .finite (isNegative s) 0 (-1074)
  | .finite s m e _ => .finite (isNegative s) m e

theorem isNegative_injective {s t : Sign} (h : isNegative s = isNegative t) : s = t := by
  cases s <;> cases t <;> simp_all [isNegative]

theorem Binary64.ofUnpacked_injective {u v : UnpackedFloat} (h : ofUnpacked u = ofUnpacked v) :
    u = v := by
  cases u <;> cases v <;> simp only [ofUnpacked, reduceCtorEq, infinite.injEq, finite.injEq] at h
  case notANumber.notANumber => rfl
  case infinity.infinity => rw [isNegative_injective h]
  case zero.zero => rw [isNegative_injective h.1]
  case zero.finite hpos => omega
  case finite.zero hpos _ => omega
  case finite.finite =>
    obtain ⟨hs, rfl, rfl⟩ := h
    rw [isNegative_injective hs]

section
variable (b : BitVec Format.binary64.numBits)

theorem toNat_unpackMantissa : (unpackMantissa b).toNat = b.toNat % 2 ^ 52 := by
  simp [unpackMantissa]

theorem toNat_unpackExponent : (unpackExponent b).toNat = b.toNat / 2 ^ 52 % 2 ^ 11 := by
  simp [unpackExponent, Nat.shiftRight_eq_div_pow]

theorem isNegative_unpackSign :
    isNegative (Sign.ofBitVec (unpackSign b)) = decide (2 ^ 63 ≤ b.toNat) := by
  have hb : b.toNat < 2 ^ 64 := b.isLt
  have hsign : (unpackSign b).toNat = b.toNat / 2 ^ 63 := by
    have h : b.toNat / 2 ^ 63 < 2 := by omega
    simp [unpackSign, Nat.shiftRight_eq_div_pow]
    omega
  have hzero : unpackSign b = 0#1 ↔ ¬ 2 ^ 63 ≤ b.toNat := by
    rw [← BitVec.toNat_inj, hsign]
    simp
  by_cases h : 2 ^ 63 ≤ b.toNat
  · rw [Sign.ofBitVec, if_neg (by rw [hzero]; exact not_not_intro h), decide_eq_true h]
    rfl
  · rw [Sign.ofBitVec, if_pos (hzero.2 h), decide_eq_false h]
    rfl

theorem unpackMantissa_eq_zero : unpackMantissa b = 0#52 ↔ b.toNat % 2 ^ 52 = 0 := by
  rw [← BitVec.toNat_inj, toNat_unpackMantissa]
  rfl

theorem unpackExponent_eq_most : unpackExponent b = -1#11 ↔ b.toNat / 2 ^ 52 % 2 ^ 11 = 2047 := by
  rw [← BitVec.toNat_inj, toNat_unpackExponent]
  rfl

theorem unpackExponent_eq_zero : unpackExponent b = 0#11 ↔ b.toNat / 2 ^ 52 % 2 ^ 11 = 0 := by
  rw [← BitVec.toNat_inj, toNat_unpackExponent]
  rfl

/-- The bits of a double and its parts say the same. -/
theorem ofBits_toNat :
    Binary64.ofBits b.toNat = .ofUnpacked (UnpackedFloat.unpack Format.binary64 b) := by
  have hfull : (1#1 ++ unpackMantissa b).toNat = 2 ^ 52 + b.toNat % 2 ^ 52 := by
    rw [BitVec.toNat_append, ← Nat.shiftLeft_add_eq_or_of_lt (unpackMantissa b).isLt,
      toNat_unpackMantissa]
    rfl
  have hbias : (Format.binary64.exponentBias : Int) + Format.binary64.mantissaBitsWithoutImplicit =
      1075 := rfl
  have hfraction := unpackMantissa_eq_zero b
  have hmost := unpackExponent_eq_most b
  have hleast := unpackExponent_eq_zero b
  unfold Binary64.ofBits UnpackedFloat.unpack
  simp only [hfraction, hmost, hleast, hfull, toNat_unpackExponent, toNat_unpackMantissa, hbias,
    ← isNegative_unpackSign]
  by_cases h2047 : b.toNat / 2 ^ 52 % 2 ^ 11 = 2047
  · rw [if_pos h2047, if_pos h2047]
    by_cases hzero : b.toNat % 2 ^ 52 = 0
    · rw [if_pos hzero, if_pos hzero, Binary64.ofUnpacked]
    · rw [if_neg hzero, if_neg hzero, Binary64.ofUnpacked]
  · rw [if_neg h2047, if_neg h2047]
    by_cases hsub : b.toNat / 2 ^ 52 % 2 ^ 11 = 0
    · rw [if_pos hsub, if_pos hsub]
      by_cases hzero : b.toNat % 2 ^ 52 = 0
      · rw [dif_pos hzero, hzero, Binary64.ofUnpacked]
      · rw [dif_neg hzero, hsub, Binary64.ofUnpacked]
        rfl
    · rw [if_neg hsub, if_neg hsub, Binary64.ofUnpacked]

end

theorem Binary64.fits_of_ofBits {bits : Nat} {negative : Bool} {m : Nat} {e : Int}
    (h : ofBits bits = .finite negative m e) (hm : 0 < m) : Fits m e := by
  have hfraction : bits % 2 ^ 52 < 2 ^ 52 := Nat.mod_lt _ (by decide)
  have hfield : bits / 2 ^ 52 % 2 ^ 11 < 2 ^ 11 := Nat.mod_lt _ (by decide)
  unfold ofBits at h
  dsimp only at h
  split at h
  · split at h <;> cases h
  · split at h
    · cases h
      exact ⟨hm, by omega, by omega, by omega, .inr rfl⟩
    · cases h
      exact ⟨by omega, by omega, by omega, by omega, .inl (by omega)⟩

theorem Binary64.exponent_of_ofBits {bits : Nat} {negative : Bool} {e : Int}
    (h : ofBits bits = .finite negative 0 e) : e = -1074 := by
  unfold ofBits at h
  dsimp only at h
  split at h
  · split at h <;> cases h
  · split at h
    · exact (Binary64.finite.inj h).2.2.symm
    · have hm := (Binary64.finite.inj h).2.1
      omega

/-- Parts that a double can have. -/
def Canonical : UnpackedFloat → Prop
  | .finite _ m e _ => Fits m e
  | _ => True

theorem canonical_unpack (b : BitVec Format.binary64.numBits) :
    Canonical (UnpackedFloat.unpack Format.binary64 b) := by
  have hbits := ofBits_toNat b
  cases hu : UnpackedFloat.unpack Format.binary64 b with
  | finite s m e hm =>
    rw [hu] at hbits
    exact Binary64.fits_of_ofBits hbits hm
  | infinity | notANumber | zero => trivial

theorem number?_ofUnpacked {u : UnpackedFloat} (h : Canonical u) (p : ℚ) :
    (Binary64.ofUnpacked u).number? = some p ↔ Stands u p := by
  cases u with
  | infinity s => simp [Binary64.ofUnpacked, Binary64.number?]
  | notANumber => simp [Binary64.ofUnpacked, Binary64.number?]
  | zero s =>
    simp only [Binary64.ofUnpacked, Binary64.number?, Nat.cast_zero, zero_mul, mul_zero,
      Option.some.injEq, stands_zero]
    exact eq_comm
  | finite s m e hm =>
    rw [Binary64.ofUnpacked, Binary64.number?, ← factor_eq, stands_finite, Option.some.injEq]
    exact ⟨fun hp => ⟨h, hp.symm⟩, fun hp => hp.2.symm⟩

theorem ofFloat_eq_ofUnpacked (x : Float) :
    Binary64.ofFloat x = .ofUnpacked x.toModel.unpack := ofBits_toNat x.toModel.toBits.toBitVec

theorem canonical_float (x : Float) : Canonical x.toModel.unpack :=
  canonical_unpack x.toModel.toBits.toBitVec

theorem number?_eq_some {x : Float} {p : ℚ} :
    number? x = some p ↔ Stands x.toModel.unpack p := by
  rw [number?, ofFloat_eq_ofUnpacked]
  exact number?_ofUnpacked (canonical_float x) p

/-- The bits of a double without its sign. -/
def magnitudeBits (m : Nat) (e : Int) : Nat := (e + 1074).toNat * 2 ^ 52 + m

theorem ofBits_magnitudeBits (negative : Bool) {m : Nat} {e : Int} (h : Fits m e) :
    Binary64.ofBits ((if negative then 2 ^ 63 else 0) + magnitudeBits m e) =
      .finite negative m e := by
  obtain ⟨hpos, hbits, hleast, hmost, hfull⟩ := h
  obtain ⟨n, rfl⟩ : ∃ n : Nat, e = n - 1074 := ⟨(e + 1074).toNat, by omega⟩
  have hn : magnitudeBits m (n - 1074) = n * 2 ^ 52 + m := by
    simp [magnitudeBits]
  have hsign : (2 ^ 63 ≤ (if negative then 2 ^ 63 else 0) + (n * 2 ^ 52 + m)) =
      (negative = true) := by
    cases negative with
    | false => simp; omega
    | true => simp
  unfold Binary64.ofBits
  rw [hn]
  simp only [hsign, Bool.decide_eq_true]
  -- the first bit of a full number carries over into the exponent
  by_cases hsub : m < 2 ^ 52
  · have hfield : ((if negative then 2 ^ 63 else 0) + (n * 2 ^ 52 + m)) / 2 ^ 52 % 2 ^ 11 = 0 := by
      cases negative <;> simp <;> omega
    have hfraction : ((if negative then 2 ^ 63 else 0) + (n * 2 ^ 52 + m)) % 2 ^ 52 = m := by
      cases negative <;> simp <;> omega
    rw [hfield, hfraction, if_neg (by omega), if_pos rfl]
    congr 1
    omega
  · have hfield : ((if negative then 2 ^ 63 else 0) + (n * 2 ^ 52 + m)) / 2 ^ 52 % 2 ^ 11 =
        n + 1 := by
      cases negative <;> simp <;> omega
    have hfraction : ((if negative then 2 ^ 63 else 0) + (n * 2 ^ 52 + m)) % 2 ^ 52 =
        m - 2 ^ 52 := by
      cases negative <;> simp <;> omega
    have hm : 2 ^ 52 + (m - 2 ^ 52) = m := by omega
    have he : ((n + 1 : Nat) : Int) - 1075 = n - 1074 := by omega
    rw [hfield, hfraction, hm, he, if_neg (by omega), if_neg (by omega)]

theorem toNat_packComponents (s : Sign) (e : BitVec 11) (m : BitVec 52) :
    (packComponents Format.binary64 s e m).toNat =
      (if isNegative s then 2 ^ 63 else 0) + (e.toNat * 2 ^ 52 + m.toNat) := by
  have happend {v w : Nat} (x : BitVec v) (y : BitVec w) :
      (x ++ y).toNat = x.toNat * 2 ^ w + y.toNat := by
    rw [BitVec.toNat_append, ← Nat.shiftLeft_add_eq_or_of_lt y.isLt, Nat.shiftLeft_eq]
  unfold packComponents
  rw [happend, happend]
  cases s with
  | negative =>
    have hs : (Sign.toBitVec .negative).toNat = 1 := rfl
    rw [hs, if_pos (by decide)]
    omega
  | positive =>
    have hs : (Sign.toBitVec .positive).toNat = 0 := rfl
    rw [hs, if_neg (by decide)]
    omega

theorem toNat_pack_finite (s : Sign) {m : Nat} {e : Int} (h : Fits m e) :
    (UnpackedFloat.pack Format.binary64 (.finite s m e h.pos)).toNat =
      (if isNegative s then 2 ^ 63 else 0) + magnitudeBits m e := by
  obtain ⟨hpos, hbits, hleast, hmost, hfull⟩ := h
  have hlog : m.log2 + 1 = 53 ↔ 2 ^ 52 ≤ m := by
    rw [← Nat.le_log2 hpos.ne']
    have hlt : m.log2 < 53 := (Nat.log2_lt hpos.ne').2 hbits
    omega
  have hfield :
      (e + Format.binary64.exponentBias + Format.binary64.mantissaBitsWithoutImplicit).toNat =
        (e + 1075).toNat := by
    change (e + 1023 + 52).toNat = _
    omega
  unfold UnpackedFloat.pack
  simp only [hfield]
  rw [if_neg (by change ¬ 2048 ≤ _; omega)]
  change (if m.log2 + 1 = 53 then _ else _ : BitVec 64).toNat = _
  simp only [hlog]
  split
  · rw [toNat_packComponents, magnitudeBits]
    simp
    omega
  · rw [toNat_packComponents, magnitudeBits]
    simp
    omega

/-- Putting parts together that a double can have loses nothing. -/
theorem unpack_pack {u : UnpackedFloat} (h : Canonical u) : (Float.Model.pack u).unpack = u := by
  cases u with
  | infinity s => cases s <;> rfl
  | notANumber => rfl
  | zero s => cases s <;> rfl
  | finite s m e hm =>
    apply Binary64.ofUnpacked_injective
    have hbits := toNat_pack_finite s h
    have hparts := ofBits_magnitudeBits (isNegative s) h
    rw [← hbits] at hparts
    exact (ofBits_toNat _).symm.trans hparts

theorem unpack_neg (x : Float) : (-x).toModel.unpack = x.toModel.unpack.neg := by
  have hneg (u : UnpackedFloat) (h : Canonical u) : Canonical u.neg := by
    cases u <;> exact h
  exact unpack_pack (hneg _ (canonical_float x))

def Binary64.neg : Binary64 → Binary64
  | .nan => .nan
  | .infinite negative => .infinite !negative
  | .finite negative m e => .finite (!negative) m e

theorem ofFloat_neg (x : Float) : Binary64.ofFloat (-x) = (Binary64.ofFloat x).neg := by
  have hneg (u : UnpackedFloat) : Binary64.ofUnpacked u.neg = (Binary64.ofUnpacked u).neg := by
    cases u with
    | notANumber => rfl
    | infinity s | zero s | finite s => cases s <;> rfl
  rw [ofFloat_eq_ofUnpacked, unpack_neg, hneg, ← ofFloat_eq_ofUnpacked]

/-- A double that is put together stands for what its parts do. -/
theorem number?_pack {u : UnpackedFloat} {p : ℚ} (h : Stands u p) :
    number? (.ofModel (Float.Model.pack u)) = some p := by
  have hcanonical : Canonical u := by
    cases h with
    | zero s => trivial
    | finite s hfits => exact hfits
  rw [number?_eq_some]
  change Stands (Float.Model.pack u).unpack p
  rwa [unpack_pack hcanonical]

theorem ofFloat_ofBits (b : UInt64) :
    Binary64.ofFloat (Float.ofBits b) = Binary64.ofBits b.toNat := by
  have hunpack := unpack_pack (canonical_unpack b.toBitVec)
  rw [ofFloat_eq_ofUnpacked]
  exact (congrArg Binary64.ofUnpacked hunpack).trans (ofBits_toNat b.toBitVec).symm

theorem Fits.magnitudeBits_lt {m : Nat} {e : Int} (h : Fits m e) :
    magnitudeBits m e < 2047 * 2 ^ 52 := by
  obtain ⟨-, hbits, hleast, hmost, -⟩ := h
  unfold magnitudeBits
  omega

/-- The double of a mantissa and an exponent. -/
theorem ofFloat_magnitudeBits {m : Nat} {e : Int} (h : Fits m e) :
    Binary64.ofFloat (Float.ofBits (magnitudeBits m e).toUInt64) = .finite false m e := by
  have hlt := h.magnitudeBits_lt
  have hword : (magnitudeBits m e).toUInt64.toNat = magnitudeBits m e := by
    rw [Nat.toUInt64_eq, UInt64.toNat_ofNat']
    omega
  have hparts := ofBits_magnitudeBits false h
  simp only [Bool.false_eq_true, if_false, zero_add] at hparts
  rw [ofFloat_ofBits, hword, hparts]

/-- What is put together from the parts of a double. -/
def Binary64.bits : Binary64 → Nat
  | .nan => 0
  | .infinite negative => (if negative then 2 ^ 63 else 0) + 2047 * 2 ^ 52
  | .finite negative m e => (if negative then 2 ^ 63 else 0) + magnitudeBits m e

/-- Bits are known from what they say, except those of what is no number. -/
theorem Binary64.bits_ofBits {b : Nat} (hb : b < 2 ^ 64) (hnan : ofBits b ≠ .nan) :
    (ofBits b).bits = b := by
  unfold ofBits at hnan ⊢
  dsimp only at hnan ⊢
  by_cases hmost : b / 2 ^ 52 % 2 ^ 11 = 2047
  · by_cases hzero : b % 2 ^ 52 = 0
    · rw [if_pos hmost, if_pos hzero, bits]
      simp only [decide_eq_true_eq]
      split <;> omega
    · rw [if_pos hmost, if_neg hzero] at hnan
      exact absurd rfl hnan
  · by_cases hleast : b / 2 ^ 52 % 2 ^ 11 = 0
    · have hscale : ((-1074 : Int) + 1074).toNat = 0 := rfl
      rw [if_neg hmost, if_pos hleast, bits, magnitudeBits, hscale, Nat.zero_mul]
      simp only [decide_eq_true_eq]
      split <;> omega
    · rw [if_neg hmost, if_neg hleast, bits, magnitudeBits]
      simp only [decide_eq_true_eq]
      split <;> omega

/-- All that is no number has the same bits. -/
theorem toBits_of_nan {x : Float} (h : Binary64.ofBits x.toBits.toNat = .nan) :
    x.toBits.toBitVec = packedNaN Format.binary64 := by
  have hparts := unpackExponent_eq_most x.toBits.toBitVec
  have hzero := unpackMantissa_eq_zero x.toBits.toBitVec
  unfold Binary64.ofBits at h
  dsimp only at h
  split at h
  next hfield =>
    split at h
    next => cases h
    next hfraction =>
      exact x.toModel.valid.eq_packedNaN (hparts.2 hfield) (fun hm => hfraction (hzero.1 hm))
  next => split at h <;> cases h

/-- Doubles that say the same are the same. -/
theorem eq_of_ofFloat_eq {x y : Float} (h : Binary64.ofFloat x = Binary64.ofFloat y) : x = y := by
  rw [Binary64.ofFloat_eq, Binary64.ofFloat_eq] at h
  have hbits : x.toBits.toBitVec = y.toBits.toBitVec := by
    by_cases hnan : Binary64.ofBits x.toBits.toNat = .nan
    · rw [toBits_of_nan hnan, toBits_of_nan (h ▸ hnan)]
    · have hx := Binary64.bits_ofBits x.toBits.toNat_lt hnan
      have hy := Binary64.bits_ofBits y.toBits.toNat_lt (h ▸ hnan)
      rw [h] at hx
      exact BitVec.eq_of_toNat_eq (hx.symm.trans hy)
  obtain ⟨⟨b, hb⟩⟩ := x
  obtain ⟨⟨c, hc⟩⟩ := y
  have heq : b = c := UInt64.toBitVec_inj.1 hbits
  subst heq
  rfl

end StyledMap.Decimal
