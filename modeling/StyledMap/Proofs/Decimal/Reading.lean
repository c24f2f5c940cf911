import StyledMap.Decimal.Reader
import StyledMap.Proofs.Decimal.Nearest
import StyledMap.Proofs.Decimal.Plain

/-! Reading back the plain text of a double. The text has the digits of a number in the double's
interval, wherever the point is put, and every number of the interval is read as the double. No two
doubles have the same text. -/
namespace StyledMap
open Text (digit? digits? digitsOnto ofNat decimalChars)

theorem Text.digitsOnto_append (n : Nat) (cs ds : List Char) :
    digitsOnto n (cs ++ ds) = (digitsOnto n cs).bind (fun k => digitsOnto k ds) := by
  induction cs generalizing n with
  | nil => rfl
  | cons c cs ih =>
    simp only [List.cons_append, digitsOnto]
    cases digit? c with
    | none => rfl
    | some d => exact ih _

theorem Text.digits?_of_ne_nil {cs : List Char} (h : cs ≠ []) : digits? cs = digitsOnto 0 cs := by
  cases cs with
  | nil => exact absurd rfl h
  | cons c cs => rfl

namespace Decimal

theorem digitsOnto_zeros (n k : Nat) : digitsOnto n (zeros k) = some (n * 10 ^ k) := by
  induction k generalizing n with
  | zero => simp [zeros, digitsOnto]
  | succ k ih =>
    have hzero : digit? '0' = some 0 := by decide
    change digitsOnto n ('0' :: zeros k) = _
    rw [digitsOnto, hzero]
    dsimp only
    rw [ih, Nat.add_zero, Nat.pow_succ]
    congr 1
    ring

/-- Zeros in front do not count. -/
theorem digits?_zeros_append (k : Nat) {ds : List Char} {n : Nat} (hds : digits? ds = some n) :
    digits? (zeros k ++ ds) = some n := by
  have hne : ds ≠ [] := by
    rintro rfl
    cases hds
  rw [Text.digits?_of_ne_nil (by simp [hne]), Text.digitsOnto_append, digitsOnto_zeros,
    Option.bind_some, Nat.zero_mul, ← Text.digits?_of_ne_nil hne, hds]

/-- Zeros behind shift the digits up. -/
theorem digits?_append_zeros (k : Nat) {ds : List Char} {n : Nat} (hds : digits? ds = some n) :
    digits? (ds ++ zeros k) = some (n * 10 ^ k) := by
  have hne : ds ≠ [] := by
    rintro rfl
    cases hds
  rw [Text.digits?_of_ne_nil (by simp [hne]), Text.digitsOnto_append, ← Text.digits?_of_ne_nil hne,
    hds, Option.bind_some, digitsOnto_zeros]

theorem zeros_chars (k : Nat) : ∀ c ∈ zeros k, c ∈ decimalChars := by
  intro c hc
  obtain rfl := List.eq_of_mem_replicate hc
  decide

theorem isDigit_of_mem {c : Char} (h : c ∈ decimalChars) : isDigit c = true := by
  have hall : decimalChars.all isDigit = true := by decide
  exact List.all_eq_true.1 hall c h

section
variable {ds fs : List Char} {n : Nat}

theorem unsignedFloat?_whole (hds : ∀ c ∈ ds, c ∈ decimalChars) (hn : digits? ds = some n) :
    unsignedFloat? ds = some (scaled n 0) := by
  have htake : ds.takeWhile isDigit = ds :=
    List.takeWhile_eq_self_iff.2 (fun c hc => isDigit_of_mem (hds c hc))
  have hdrop : ds.dropWhile isDigit = [] :=
    List.dropWhile_eq_nil_iff.2 (fun c hc => isDigit_of_mem (hds c hc))
  unfold unsignedFloat?
  simp only [htake, hdrop, List.append_nil, hn]
  rfl

theorem unsignedFloat?_point (hds : ∀ c ∈ ds, c ∈ decimalChars) (hfs : ∀ c ∈ fs, c ∈ decimalChars)
    (hn : digits? (ds ++ fs) = some n) :
    unsignedFloat? (ds ++ '.' :: fs) = some (scaled n (-(fs.length : Int))) := by
  have hpoint : isDigit '.' = false := by decide
  have htake : (ds ++ '.' :: fs).takeWhile isDigit = ds := by
    rw [List.takeWhile_append_of_pos (fun c hc => isDigit_of_mem (hds c hc))]
    simp [hpoint]
  have hdrop : (ds ++ '.' :: fs).dropWhile isDigit = '.' :: fs := by
    rw [List.dropWhile_append_of_pos (fun c hc => isDigit_of_mem (hds c hc))]
    simp [hpoint]
  have htake' : fs.takeWhile isDigit = fs :=
    List.takeWhile_eq_self_iff.2 (fun c hc => isDigit_of_mem (hfs c hc))
  have hdrop' : fs.dropWhile isDigit = [] :=
    List.dropWhile_eq_nil_iff.2 (fun c hc => isDigit_of_mem (hfs c hc))
  unfold unsignedFloat?
  simp only [htake, hdrop, htake', hdrop', hn]

/-- Wherever the point is put, the digits stand for the same number. -/
theorem unsignedFloat?_place (hds : ∀ c ∈ ds, c ∈ decimalChars) (hn : digits? ds = some n) (e : Int) :
    ∃ k x, unsignedFloat? (Layout.plain.place ds (ds.length + e)) = some (scaled k x) ∧
      (k : ℚ) * 10 ^ x = n * 10 ^ e ∧ min e 0 ≤ x := by
  unfold Layout.place
  split
  next hp =>
    obtain ⟨z, hz⟩ : ∃ z : Nat, z = (-(ds.length + e : Int)).toNat := ⟨_, rfl⟩
    rw [← hz]
    have hzeros := digits?_zeros_append (z + 1) hn
    refine ⟨n, e, ?_, rfl, by omega⟩
    have hread := unsignedFloat?_point (zeros_chars 1)
      (List.forall_mem_append.2 ⟨zeros_chars z, hds⟩) hzeros
    have hlength : -((zeros z ++ ds).length : Int) = e := by
      simp only [List.length_append, zeros, List.length_replicate]
      omega
    rwa [hlength] at hread
  next hp =>
    split
    next hle =>
      obtain ⟨z, rfl⟩ : ∃ z : Nat, e = z := ⟨e.toNat, by omega⟩
      have hz : (ds.length + z : Int).toNat - ds.length = z := by omega
      rw [hz]
      refine ⟨n * 10 ^ z, 0, ?_, ?_, by omega⟩
      · have hall : ∀ c ∈ ds ++ zeros z, c ∈ decimalChars :=
          List.forall_mem_append.2 ⟨hds, zeros_chars z⟩
        have hread := unsignedFloat?_whole hall (digits?_append_zeros z hn)
        simpa [Layout.plain] using hread
      · push_cast
        simp
    next hlt =>
      obtain ⟨p, hp⟩ : ∃ p : Nat, (ds.length + e : Int) = p := ⟨(ds.length + e : Int).toNat, by omega⟩
      rw [hp, Int.toNat_natCast]
      refine ⟨n, e, ?_, rfl, by omega⟩
      have htake : ∀ c ∈ ds.take p, c ∈ decimalChars := fun c hc => hds c (List.mem_of_mem_take hc)
      have hdrop : ∀ c ∈ ds.drop p, c ∈ decimalChars := fun c hc => hds c (List.mem_of_mem_drop hc)
      have hread := unsignedFloat?_point htake hdrop (by rwa [List.take_append_drop])
      have hlength : -((ds.drop p).length : Int) = e := by
        rw [List.length_drop]
        omega
      rwa [hlength] at hread

/-- The text begins with a digit. -/
theorem place_head (hne : ds ≠ []) (hds : ∀ c ∈ ds, c ∈ decimalChars) (p : Int) :
    ∃ c cs, Layout.plain.place ds p = c :: cs ∧ c ∈ decimalChars := by
  obtain ⟨d, ds, rfl⟩ := List.exists_cons_of_ne_nil hne
  have hd := hds d List.mem_cons_self
  unfold Layout.place
  split
  next => exact ⟨'0', _, rfl, by decide⟩
  next hp =>
    split
    next => exact ⟨d, _, rfl, hd⟩
    next =>
      obtain ⟨k, hk⟩ : ∃ k, p.toNat = k + 1 := ⟨p.toNat - 1, by omega⟩
      rw [hk]
      exact ⟨d, _, rfl, hd⟩

end

/-- A number that begins with a digit is not a word. -/
theorem magnitude?_digit {c : Char} {cs : List Char} (hc : c ∈ decimalChars) :
    magnitude? (c :: cs) = unsignedFloat? (c :: cs) := by
  have hall : decimalChars.all (fun c => lower c ≠ 'i' ∧ lower c ≠ 'n') = true := by decide
  obtain ⟨hi, hn⟩ := of_decide_eq_true (List.all_eq_true.1 hall c hc)
  unfold magnitude?
  dsimp only
  rw [if_neg, if_neg]
  · intro h
    exact hn (List.cons.inj h).1
  · rintro (h | h)
    · exact hi (List.cons.inj h).1
    · exact hi (List.cons.inj h).1

theorem float?_minus {negative : Bool} {c : Char} {cs : List Char} {x : Float} (hm : c ≠ '-')
    (hp : c ≠ '+') (h : magnitude? (c :: cs) = some x) :
    float? (minus negative (c :: cs)) = some (signed negative x) := by
  cases negative with
  | true => simp [minus, float?, h, signed]
  | false =>
    unfold float? minus signed
    split
    next heq => exact absurd (List.cons.inj heq).1 hm
    next heq => exact absurd (List.cons.inj heq).1 hp
    next => exact h

/-- Numbers in the interval of a double are read as the double: none of them is so far up or down that
it is not written out. -/
theorem scaled_eq {n m : Nat} {x e : Int} (hfits : Fits m e)
    (h : (Interval.around m e).Contains (n * 10 ^ x)) (hx : -400 ≤ x) :
    scaled n x = Float.ofBits (magnitudeBits m e).toUInt64 := by
  have hn : 0 < n := hfits.pos_of_contains_mul h
  have hsize : (n.log2 : Int) * 1233 / 4096 + x < 400 := by
    have hlow : (10 : ℚ) ^ ((n.log2 : Int) * 1233 / 4096) ≤ n := by
      refine (ten_zpow_le_two_zpow (l := n.log2) (by omega) (by omega)).trans ?_
      rw [zpow_natCast]
      exact_mod_cast Nat.log2_self_le hn.ne'
    have hhigh : (2 : ℚ) ^ (e + 53) ≤ 10 ^ (400 : Int) :=
      (zpow_le_zpow_right₀ one_le_two (by have := hfits.most; omega)).trans
        (zpow_le_zpow_of_pow_le (b := 2) (c := 10) (k := 1024) (n := 400) (by decide +kernel))
    apply (zpow_lt_zpow_iff_right₀ (by norm_num : (1 : ℚ) < 10)).1
    calc (10 : ℚ) ^ ((n.log2 : Int) * 1233 / 4096 + x)
        = 10 ^ ((n.log2 : Int) * 1233 / 4096) * 10 ^ x := zpow_add₀ (by norm_num) _ _
      _ ≤ n * 10 ^ x := by gcongr
      _ < 2 ^ (e + 53) := hfits.lt_of_contains h
      _ ≤ 10 ^ (400 : Int) := hhigh
  rw [← Nat.cast_ofNat (R := ℚ) (n := 10), ← quotient_eq (by decide)] at h
  unfold scaled
  dsimp only
  rw [if_neg (by omega), if_neg (by omega)]
  exact nearest_eq (power_pos (by decide) _) hfits h

/-- With its sign the double is complete. -/
theorem signed_eq {negative : Bool} {x y : Float} {m : Nat} {e : Int}
    (hx : Binary64.ofFloat x = .finite negative m e) (hy : Binary64.ofFloat y = .finite false m e) :
    signed negative y = x := by
  apply eq_of_ofFloat_eq
  rw [hx]
  cases negative with
  | false => exact hy
  | true =>
    change Binary64.ofFloat (-y) = _
    rw [ofFloat_neg, hy]
    rfl

/-- A positive double is read from its digits, and these begin with a digit. -/
theorem magnitude?_digits {m : Nat} {e : Int} (hfits : Fits m e) :
    ∃ c cs, Layout.plain.digits (shortest Layout.plain.tie m e) = c :: cs ∧ c ∈ decimalChars ∧
      magnitude? (c :: cs) = some (Float.ofBits (magnitudeBits m e).toUInt64) := by
  obtain ⟨hin, hleast⟩ := shortest_spec Layout.plain.tie hfits
  obtain ⟨s, hs⟩ : ∃ s, s = shortest Layout.plain.tie m e := ⟨_, rfl⟩
  rw [← hs] at hin hleast ⊢
  have hchars := Text.ofNat_chars s.digits
  obtain ⟨k, x, hread, hvalue, hx⟩ :=
    unsignedFloat?_place hchars (Text.digits?_ofNat s.digits) s.exponent
  obtain ⟨c, cs, hplace, hc⟩ := place_head (Text.ofNat_ne_nil s.digits) hchars
    ((ofNat s.digits).length + s.exponent)
  refine ⟨c, cs, hplace, hc, ?_⟩
  rw [← hvalue] at hin
  rw [magnitude?_digit hc, ← hplace, hread, scaled_eq hfits hin (by omega)]

/-- The text of a double is read as the double, whether it is finite or not. -/
theorem float?_plainText (x : Float) : float? (plainText x).toList = some x := by
  unfold plainText Layout.text
  cases hx : Binary64.ofFloat x with
  | nan =>
    have hnan : float? "NaN".toList = some (0 / 0) := rfl
    have hparts : Binary64.ofFloat (0 / 0) = .nan := rfl
    dsimp only
    rw [hnan, eq_of_ofFloat_eq (hparts.trans hx.symm)]
  | infinite negative =>
    have hword : magnitude? ['i', 'n', 'f'] = some infinity := rfl
    have hparts : Binary64.ofFloat (signed negative infinity) = .infinite negative := by
      cases negative <;> rfl
    dsimp only
    rw [String.toList_ofList, float?_minus (by decide) (by decide) hword,
      eq_of_ofFloat_eq (hparts.trans hx.symm)]
  | finite negative m e =>
    dsimp only
    rw [String.toList_ofList]
    split
    next hm =>
      subst hm
      obtain rfl := Binary64.exponent_of_ofBits hx
      have hzero : magnitude? ['0'] = some 0 := rfl
      have hparts : Binary64.ofFloat 0 = .finite false 0 (-1074) := rfl
      change float? (minus negative ['0']) = _
      rw [float?_minus (by decide) (by decide) hzero, signed_eq hx hparts]
    next hm =>
      have hfits := Binary64.fits_of_ofBits hx (Nat.pos_of_ne_zero hm)
      obtain ⟨c, cs, hdigits, hc, hread⟩ := magnitude?_digits hfits
      have hminus : c ≠ '-' := by
        rintro rfl
        revert hc
        decide
      have hplus : c ≠ '+' := by
        rintro rfl
        revert hc
        decide
      rw [hdigits, float?_minus hminus hplus hread, signed_eq hx (ofFloat_magnitudeBits hfits)]

end Decimal
end StyledMap
