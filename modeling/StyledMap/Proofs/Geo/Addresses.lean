import StyledMap.Geo.Tile
import StyledMap.Proofs.Json.Returns
import StyledMap.Proofs.Request.Validity

/-! Addresses of tiles, three numbers with slashes between them. A text is read as a tile exactly if it is
the address of one. What is reported of other texts tells those that are no addresses, or whose numbers
have too many bits, from those whose zoom level or whose tile does not exist. -/
namespace StyledMap
open Request (Side)

theorem Text.split_eq_iff {sep : Char} {cs : List Char} {ps : List (List Char)} (hne : ps ≠ []) :
    Text.split sep cs = ps ↔ cs = List.intercalate [sep] ps ∧ ∀ p ∈ ps, sep ∉ p := by
  constructor
  · intro h
    subst h
    exact ⟨(Text.intercalate_split sep cs).symm, fun p hp => Text.not_mem_of_mem_split hp⟩
  · intro h
    rw [h.1, Text.split_intercalate hne h.2]

theorem Request.Side.slash_not_mem {cs : List Char} {n : Nat} (h : Side cs n) : '/' ∉ cs := by
  have hdigits {ds : List Nat} {cs : List Char} (h : Json.Digits ds cs) : '/' ∉ cs := by
    intro hmem
    exact absurd (h.isDigit '/' hmem) (by decide)
  cases h with
  | digits hne h => exact hdigits h
  | plus hne h => simpa using hdigits h

theorem Request.Side.unique {cs : List Char} {m n : Nat} (hm : Side cs m) (hn : Side cs n) : m = n := by
  rw [← Request.digits?_dropPlus] at hm hn
  rw [hm] at hn
  exact Option.some.inj hn

theorem Request.side_ofNat (n : Nat) : Side (Text.ofNat n) n := by
  obtain ⟨ds, hds, hn, hne, -⟩ := Json.Number.digits_ofNatOnto n [] [] rfl
  rw [List.append_nil] at hds
  rw [← hn] at hds ⊢
  exact .digits hne hds

namespace Tile
open Geo (Fault)

/-- Without the blanks around it, a text of three numbers with slashes between them. Each number is one
digit or more behind at most one plus sign. -/
def Address (s : String) (zoom x y : Nat) : Prop :=
  ∃ z c r, Text.trim s.toList = z ++ '/' :: (c ++ '/' :: r) ∧ Side z zoom ∧ Side c x ∧ Side r y

theorem split_address {cs z c r : List Char} : Text.split '/' cs = [z, c, r] ↔
    cs = z ++ '/' :: (c ++ '/' :: r) ∧ '/' ∉ z ∧ '/' ∉ c ∧ '/' ∉ r := by
  rw [Text.split_eq_iff (List.cons_ne_nil z [c, r])]
  simp [List.intercalate]

theorem Address.unique {s : String} {zoom x y zoom' x' y' : Nat} (h : Address s zoom x y)
    (h' : Address s zoom' x' y') : zoom = zoom' ∧ x = x' ∧ y = y' := by
  obtain ⟨z, c, r, hs, hz, hc, hr⟩ := h
  obtain ⟨z', c', r', hs', hz', hc', hr'⟩ := h'
  have hsplit := split_address.2 ⟨hs, hz.slash_not_mem, hc.slash_not_mem, hr.slash_not_mem⟩
  have hsplit' := split_address.2 ⟨hs', hz'.slash_not_mem, hc'.slash_not_mem, hr'.slash_not_mem⟩
  rw [hsplit] at hsplit'
  simp only [List.cons.injEq, and_true] at hsplit'
  obtain ⟨rfl, rfl, rfl⟩ := hsplit'
  exact ⟨hz.unique hz', hc.unique hc', hr.unique hr'⟩

/-- Zoom levels are kept in 8 bits, columns and rows in 32. -/
def Fits (zoom x y : Nat) : Prop := zoom < 2 ^ 8 ∧ x < 2 ^ 32 ∧ y < 2 ^ 32

theorem read_of_fits {s : String} {zoom x y : Nat} (h : Address s zoom x y) (hfits : Fits zoom x y) :
    read s = make zoom x y := by
  obtain ⟨z, c, r, hs, hz, hc, hr⟩ := h
  have hsplit := split_address.2 ⟨hs, hz.slash_not_mem, hc.slash_not_mem, hr.slash_not_mem⟩
  have hzoom : Text.unsigned? Text.maxUnsigned8 z = some zoom :=
    Request.unsigned?_eq_some.2 ⟨hz, Nat.le_pred_of_lt hfits.1⟩
  have hx : Text.unsigned? Text.maxUnsigned32 c = some x :=
    Request.unsigned?_eq_some.2 ⟨hc, Nat.le_pred_of_lt hfits.2.1⟩
  have hy : Text.unsigned? Text.maxUnsigned32 r = some y :=
    Request.unsigned?_eq_some.2 ⟨hr, Nat.le_pred_of_lt hfits.2.2⟩
  simp only [read, hsplit, hzoom, hx, hy]

/-- Every text that is not refused as no address is one, of numbers that fit. -/
theorem read_cases (s : String) :
    (∃ zoom x y, Address s zoom x y ∧ Fits zoom x y) ∨ read s = .error (.notAnAddress s) := by
  unfold read
  split
  · rename_i z c r hsplit
    split
    · rename_i zoom x y hz hx hy
      rw [Request.unsigned?_eq_some] at hz hx hy
      have hfits : Fits zoom x y :=
        ⟨Nat.lt_of_le_pred (by decide) hz.2, Nat.lt_of_le_pred (by decide) hx.2,
          Nat.lt_of_le_pred (by decide) hy.2⟩
      exact .inl ⟨zoom, x, y, ⟨z, c, r, (split_address.1 hsplit).1, hz.1, hx.1, hy.1⟩, hfits⟩
    · exact .inr rfl
  · exact .inr rfl

theorem make_eq_ok {zoom x y : Nat} {t : Tile} :
    make zoom x y = .ok t ↔ t = ⟨zoom, x, y⟩ ∧ zoom ≤ 22 ∧ x < 2 ^ zoom ∧ y < 2 ^ zoom := by
  unfold make Geo.deepestZoom
  by_cases hz : 22 < zoom
  · rw [if_pos hz]
    simp only [reduceCtorEq, false_iff]
    omega
  · by_cases ht : 2 ^ zoom ≤ x ∨ 2 ^ zoom ≤ y
    · rw [if_neg hz, if_pos ht]
      simp only [reduceCtorEq, false_iff]
      omega
    · rw [if_neg hz, if_neg ht, Except.ok.injEq, eq_comm]
      have hin : zoom ≤ 22 ∧ x < 2 ^ zoom ∧ y < 2 ^ zoom := by omega
      simp only [hin, and_self, and_true]

/-- There is no such zoom level, or no such tile at it. -/
inductive Missing (zoom x y : Nat) : Fault → Prop where
  | zoom (h : 22 < zoom) : Missing zoom x y (.zoomTooDeep zoom)
  | tile (hz : zoom ≤ 22) (h : 2 ^ zoom ≤ x ∨ 2 ^ zoom ≤ y) : Missing zoom x y (.tileOutOfRange zoom x y)

theorem make_eq_error {zoom x y : Nat} {f : Fault} : make zoom x y = .error f ↔ Missing zoom x y f := by
  unfold make Geo.deepestZoom
  constructor
  · intro h
    by_cases hz : 22 < zoom
    · rw [if_pos hz] at h
      cases h
      exact .zoom hz
    · rw [if_neg hz] at h
      by_cases ht : 2 ^ zoom ≤ x ∨ 2 ^ zoom ≤ y
      · rw [if_pos ht] at h
        cases h
        exact .tile (by omega) ht
      · rw [if_neg ht] at h
        cases h
  · intro h
    cases h with
    | zoom hz => rw [if_pos hz]
    | tile hz ht => rw [if_neg (by omega), if_pos ht]

/-- A tile that exists has few columns before it and few rows above it. -/
theorem fits_of_make {zoom x y : Nat} {t : Tile} (h : make zoom x y = .ok t) : Fits zoom x y := by
  obtain ⟨-, hz, hx, hy⟩ := make_eq_ok.1 h
  have hpow : 2 ^ zoom ≤ 2 ^ 22 := Nat.pow_le_pow_right (by decide) hz
  unfold Fits
  omega

theorem address_text (t : Tile) : Address t.text t.zoom t.x t.y := by
  refine ⟨Text.ofNat t.zoom, Text.ofNat t.x, Text.ofNat t.y, ?_, Request.side_ofNat t.zoom,
    Request.side_ofNat t.x, Request.side_ofNat t.y⟩
  have hchars : t.text.toList =
      Text.ofNat t.zoom ++ '/' :: (Text.ofNat t.x ++ '/' :: Text.ofNat t.y) := by
    simp [text, Text.nat]
  have hfirm : Text.Firm t.text.toList := by
    refine Text.firm_of_forall (by simp [hchars]) (fun c hc => ?_)
    have hmem : c ∈ '/' :: Text.decimalChars := by
      have hdigits (n : Nat) (h : c ∈ Text.ofNat n) : c ∈ '/' :: Text.decimalChars :=
        List.mem_cons_of_mem _ (Text.ofNat_chars n c h)
      simp only [hchars, List.mem_append, List.mem_cons] at hc
      obtain h | rfl | h | rfl | h := hc
      · exact hdigits _ h
      · exact List.mem_cons_self
      · exact hdigits _ h
      · exact List.mem_cons_self
      · exact hdigits _ h
    exact (show ∀ c ∈ '/' :: Text.decimalChars, Text.isBlank c = false by decide) c hmem
  rw [hfirm.trim, hchars]

theorem read_eq_ok {s : String} {t : Tile} : read s = .ok t ↔
    Address s t.zoom t.x t.y ∧ t.zoom ≤ 22 ∧ t.x < 2 ^ t.zoom ∧ t.y < 2 ^ t.zoom := by
  constructor
  · intro h
    obtain ⟨zoom, x, y, ha, hfits⟩ | hno := read_cases s
    · rw [read_of_fits ha hfits, make_eq_ok] at h
      obtain ⟨rfl, hin⟩ := h
      exact ⟨ha, hin⟩
    · rw [hno] at h
      cases h
  · intro h
    have hmake : make t.zoom t.x t.y = .ok t := make_eq_ok.2 ⟨rfl, h.2⟩
    rw [read_of_fits h.1 (fits_of_make hmake), hmake]

theorem read_eq_error {s : String} {f : Fault} : read s = .error f ↔
    (f = .notAnAddress s ∧ ∀ zoom x y, Address s zoom x y → ¬ Fits zoom x y) ∨
      ∃ zoom x y, Address s zoom x y ∧ Fits zoom x y ∧ Missing zoom x y f := by
  by_cases hfit : ∃ zoom x y, Address s zoom x y ∧ Fits zoom x y
  · obtain ⟨zoom, x, y, ha, hfits⟩ := hfit
    rw [read_of_fits ha hfits, make_eq_error]
    constructor
    · intro h
      exact .inr ⟨zoom, x, y, ha, hfits, h⟩
    · intro h
      obtain ⟨-, hno⟩ | ⟨zoom', x', y', ha', -, h⟩ := h
      · exact absurd hfits (hno zoom x y ha)
      · obtain ⟨rfl, rfl, rfl⟩ := ha.unique ha'
        exact h
  · rw [(read_cases s).resolve_left hfit, Except.error.injEq]
    constructor
    · intro h
      exact .inl ⟨h.symm, fun zoom x y ha hfits => hfit ⟨zoom, x, y, ha, hfits⟩⟩
    · intro h
      obtain ⟨h, -⟩ | ⟨zoom, x, y, ha, hfits, -⟩ := h
      · exact h.symm
      · exact absurd ⟨zoom, x, y, ha, hfits⟩ hfit

theorem read_text {zoom x y : Nat} {t : Tile} (h : make zoom x y = .ok t) : read t.text = .ok t := by
  obtain ⟨rfl, -⟩ := make_eq_ok.1 h
  rw [read_of_fits (address_text _) (fits_of_make h), h]

/-- Exactly the addresses of tiles are read. A text that is no address, or has a number that does not fit,
is refused as it was given; of an address whose numbers fit, the zoom level and then the tile is reported
missing. Every tile is read from its own text. -/
theorem read_addresses :
    (∀ s t, read s = .ok t ↔
      Address s t.zoom t.x t.y ∧ t.zoom ≤ 22 ∧ t.x < 2 ^ t.zoom ∧ t.y < 2 ^ t.zoom) ∧
    (∀ s f, read s = .error f ↔
      (f = .notAnAddress s ∧ ∀ zoom x y, Address s zoom x y → ¬ Fits zoom x y) ∨
      ∃ zoom x y, Address s zoom x y ∧ Fits zoom x y ∧ Missing zoom x y f) ∧
    ∀ zoom x y t, make zoom x y = .ok t → read t.text = .ok t :=
  ⟨fun _ _ => read_eq_ok, fun _ _ => read_eq_error, fun _ _ _ _ h => read_text h⟩

/-- Plus signs, zeros in front and blanks around an address do not count. -/
example : read " +3/007/5\n" = .ok ⟨3, 7, 5⟩ := by rfl

end Tile
end StyledMap
