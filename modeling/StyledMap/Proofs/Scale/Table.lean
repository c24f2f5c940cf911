import Mathlib.Data.List.Nodup
import StyledMap.Proofs.Decimal.Plain
import StyledMap.Proofs.Xml.Sound
import StyledMap.Scale.Threshold

/-! The table of thresholds as its readers see it: which denominator a threshold has, what it is
called, and that no two thresholds share a name. -/
namespace StyledMap.Threshold

/-- How far behind its own index the denominator of a threshold stands. -/
def Kind.offset : Kind → Nat
  | .maxScale => 0
  | .minScale => 1

theorem getElem?_of_mem_numbered {kind : Kind} {first : Nat} {zs : List Float} {t : Threshold}
    (h : t ∈ numbered kind first zs) :
    t.kind = kind ∧ zs[t.zoom - first]? = some t.denominator := by
  induction zs generalizing first with
  | nil => simp [numbered] at h
  | cons z zs ih =>
    obtain rfl | h := List.mem_cons.1 h
    · simp
    · have hle := first_le_zoom h
      obtain ⟨hkind, hz⟩ := ih h
      have hindex : t.zoom - first = (t.zoom - (first + 1)) + 1 := by omega
      rw [hindex, List.getElem?_cons_succ]
      exact ⟨hkind, hz⟩

/-- The last denominator bounds nothing from above, the first two nothing from below. -/
theorem of_mem_table {zooms : List Float} {t : Threshold} (h : t ∈ table zooms) :
    zooms[t.zoom + t.kind.offset]? = some t.denominator ∧ t.zoom + 1 < zooms.length ∧
      t.kind.offset ≤ t.zoom := by
  obtain h | h := List.mem_append.1 h
  · obtain ⟨hkind, hz⟩ := getElem?_of_mem_numbered h
    rw [List.getElem?_dropLast] at hz
    split at hz
    · rename_i hlt
      rw [hkind]
      simp only [Kind.offset]
      exact ⟨hz, by omega, Nat.zero_le _⟩
    · cases hz
  · obtain ⟨hkind, hz⟩ := getElem?_of_mem_numbered h
    have hle := first_le_zoom h
    rw [List.getElem?_drop, show 2 + (t.zoom - 1) = t.zoom + 1 by omega] at hz
    obtain ⟨hlt, -⟩ := List.getElem?_eq_some_iff.1 hz
    rw [hkind]
    exact ⟨hz, hlt, hle⟩

theorem of_find? {table : List Threshold} {kind : Kind} {zoom : Nat} {t : Threshold}
    (h : find? table kind zoom = some t) : t ∈ table ∧ t.kind = kind ∧ t.zoom = zoom := by
  have hp := List.find?_some h
  simp only [Bool.and_eq_true, decide_eq_true_eq] at hp
  exact ⟨List.mem_of_find?_eq_some h, hp⟩

theorem find?_numbered (kind kind' : Kind) (first zoom : Nat) (zs : List Float) :
    find? (numbered kind' first zs) kind zoom =
      if kind = kind' ∧ first ≤ zoom then (zs[zoom - first]?).map (⟨kind, zoom, ·⟩) else none := by
  unfold find?
  induction zs generalizing first with
  | nil => simp [numbered]
  | cons z zs ih =>
    rw [numbered, List.find?_cons, ih]
    by_cases hkind : kind = kind'
    · subst hkind
      by_cases hzoom : first = zoom
      · subst hzoom
        simp
      · by_cases hle : first ≤ zoom
        · have hindex : zoom - first = (zoom - (first + 1)) + 1 := by omega
          have hnext : first + 1 ≤ zoom := by omega
          simp [hzoom, hle, hnext, hindex]
        · have hnext : ¬ first + 1 ≤ zoom := by omega
          simp [hzoom, hle, hnext]
    · have hne : kind' ≠ kind := Ne.symm hkind
      simp [hkind, hne]

/-- A table holds all that the denominators make: a bound from above under every index but the last, one
from below under those but the first as well. -/
theorem find?_table (zooms : List Float) (kind : Kind) (zoom : Nat) :
    find? (table zooms) kind zoom =
      if kind.offset ≤ zoom ∧ zoom + 1 < zooms.length then
        (zooms[zoom + kind.offset]?).map (⟨kind, zoom, ·⟩)
      else none := by
  have hparts : find? (table zooms) kind zoom =
      (find? (numbered .maxScale 0 zooms.dropLast) kind zoom).or
        (find? (numbered .minScale 1 (zooms.drop 2)) kind zoom) := List.find?_append
  rw [hparts, find?_numbered, find?_numbered]
  cases kind with
  | maxScale =>
    have hbound : zoom < zooms.length - 1 ↔ zoom + 1 < zooms.length := by omega
    by_cases hlt : zoom + 1 < zooms.length
    · have hmem : zoom < zooms.length := Nat.lt_of_succ_lt hlt
      simp [Kind.offset, hbound, hlt, hmem]
    · simp [Kind.offset, hbound, hlt]
  | minScale =>
    by_cases hle : 1 ≤ zoom
    · have hindex : 2 + (zoom - 1) = zoom + 1 := by omega
      by_cases hlt : zoom + 1 < zooms.length
      · simp [Kind.offset, List.getElem?_drop, hle, hlt, hindex]
      · simp [Kind.offset, List.getElem?_drop, hle, hlt, hindex]
    · simp [Kind.offset, hle]

theorem keys_numbered (kind : Kind) (first : Nat) (zs : List Float) :
    (numbered kind first zs).map (fun t => (t.kind, t.zoom)) =
      (List.range' first zs.length).map (fun zoom => (kind, zoom)) := by
  induction zs generalizing first with
  | nil => rfl
  | cons z zs ih => simp [numbered, ih, List.range'_succ]

/-- The bounds from above come first; each kind goes through its indices upwards. -/
theorem keys_table (zooms : List Float) :
    (table zooms).map (fun t => (t.kind, t.zoom)) =
      (List.range (zooms.length - 1)).map (fun zoom => (Kind.maxScale, zoom)) ++
        (List.range' 1 (zooms.length - 2)).map (fun zoom => (Kind.minScale, zoom)) := by
  rw [table, List.map_append, keys_numbered, keys_numbered, List.length_dropLast, List.length_drop,
    List.range_eq_range']

theorem nameOf_toList (kind : Kind) (zoom : Nat) :
    (nameOf kind zoom).toList = kind.text.toList ++ ("_zoom".toList ++ Text.ofNat zoom) := by
  simp [nameOf, Text.nat]

theorem isName_nameOf (kind : Kind) (zoom : Nat) : Xml.isName (nameOf kind zoom).toList = true := by
  have hdigits : (Text.ofNat zoom).all Xml.isNameChar = true := by
    rw [List.all_eq_true]
    intro c hc
    have hall : ∀ c ∈ Text.decimalChars, Xml.isNameChar c = true := by decide
    exact hall c (Text.ofNat_chars zoom c hc)
  rw [nameOf_toList]
  cases kind <;> simp [Kind.text, Xml.isName, hdigits] <;> decide

theorem nameOf_injective {kind kind' : Kind} {zoom zoom' : Nat}
    (h : nameOf kind zoom = nameOf kind' zoom') : kind = kind' ∧ zoom = zoom' := by
  have hl := congrArg String.toList h
  rw [nameOf_toList, nameOf_toList] at hl
  have hlength : kind.text.toList.length = kind'.text.toList.length := by
    cases kind <;> cases kind' <;> simp [Kind.text]
  obtain ⟨htext, hrest⟩ := List.append_inj hl hlength
  have hdigits : Text.ofNat zoom = Text.ofNat zoom' := List.append_cancel_left hrest
  refine ⟨?_, ?_⟩
  · cases kind <;> cases kind' <;> first | rfl | exact absurd htext (by decide)
  · have hread := Text.digits?_ofNat zoom
    rw [hdigits, Text.digits?_ofNat zoom'] at hread
    exact (Option.some.inj hread).symm

theorem names_nodup (zooms : List Float) : ((table zooms).map name).Nodup := by
  have hnames : (table zooms).map name =
      ((table zooms).map (fun t => (t.kind, t.zoom))).map (fun k => nameOf k.1 k.2) := by
    rw [List.map_map]
    rfl
  have hkeys : ((table zooms).map (fun t => (t.kind, t.zoom))).Nodup := by
    rw [keys_table, List.nodup_append]
    have hinjective (kind : Kind) : Function.Injective (fun zoom : Nat => (kind, zoom)) :=
      fun _ _ he => (Prod.mk.inj he).2
    refine ⟨List.nodup_range.map (hinjective _), List.Nodup.map (hinjective _) List.nodup_range',
      fun k hk k' hk' he => ?_⟩
    obtain ⟨_, -, rfl⟩ := List.mem_map.1 hk
    obtain ⟨_, -, rfl⟩ := List.mem_map.1 hk'
    cases he
  rw [hnames]
  exact hkeys.map fun k k' he => Prod.ext_iff.2 (nameOf_injective he)

/-- A name that the indices allow is borne by a threshold of the table. -/
theorem nameOf_mem_table {zooms : List Float} {kind : Kind} {zoom : Nat} (hle : kind.offset ≤ zoom)
    (hlt : zoom + 1 < zooms.length) : nameOf kind zoom ∈ (table zooms).map name := by
  have hindex : zoom + kind.offset < zooms.length := by
    have hoffset : kind.offset ≤ 1 := by cases kind <;> decide
    omega
  have hfind := find?_table zooms kind zoom
  rw [if_pos ⟨hle, hlt⟩, List.getElem?_eq_getElem hindex] at hfind
  exact List.mem_map_of_mem (of_find? hfind).1

/-- A name leads to the one threshold that bears it. -/
theorem eq_of_name_eq {zooms : List Float} {s t : Threshold} (hs : s ∈ table zooms)
    (ht : t ∈ table zooms) (h : s.name = t.name) : s = t := by
  obtain ⟨hkind, hzoom⟩ := nameOf_injective h
  have hz := (of_mem_table hs).1
  rw [hkind, hzoom, (of_mem_table ht).1] at hz
  cases s
  cases t
  simp_all

end StyledMap.Threshold
