import Mathlib.Data.List.Forall2
import StyledMap.Json.Reader
import StyledMap.Proofs.Json.Members
import StyledMap.Proofs.Json.Spelling

/-! What trees stand for. Arrays keep their nesting, an object has each name once, at its first place
and with its last value, strings are the characters they spell and whole numbers are exact; a tree
stands for nothing if half a pair of code units, a number out of range or too many open containers
are in it. -/
namespace StyledMap.Json

/-- The characters of a string. A code unit is a character of its own, or the first of a pair. -/
inductive Characters : List Piece → List Char → Prop where
  | nil : Characters [] []
  | char (c : Char) {ps : List Piece} {cs : List Char} (h : Characters ps cs) :
      Characters (.char c :: ps) (c :: cs)
  | unit {u : Nat} (hu : u < 0xD800 ∨ 0xDFFF < u) {ps : List Piece} {cs : List Char}
      (h : Characters ps cs) : Characters (.unit u :: ps) (Char.ofNat u :: cs)
  | pair {u v : Nat} (hu : 0xD800 ≤ u ∧ u ≤ 0xDBFF) (hv : 0xDC00 ≤ v ∧ v ≤ 0xDFFF)
      {ps : List Piece} {cs : List Char} (h : Characters ps cs) :
      Characters (.unit u :: .unit v :: ps)
        (Char.ofNat (0x10000 + (u - 0xD800) * 0x400 + (v - 0xDC00)) :: cs)

theorem charsOnto_nil (done : List Char) : charsOnto done [] = some done.reverse := by
  rw [charsOnto]

theorem charsOnto_cons {p : Piece} {ps rest : List Piece} {c : Char} (done : List Char)
    (h : pieceChar? (p :: ps) = some (c, rest)) :
    charsOnto done (p :: ps) = charsOnto (c :: done) rest := by
  rw [charsOnto]
  split
  · rename_i c' rest' h'
    obtain ⟨rfl, rfl⟩ := Prod.mk.inj (Option.some.inj (h.symm.trans h'))
    rfl
  · rename_i h'
    rw [h] at h'
    cases h'

theorem pieceChar?_unit {u : Nat} (hu : u < 0xD800 ∨ 0xDFFF < u) (ps : List Piece) :
    pieceChar? (.unit u :: ps) = some (Char.ofNat u, ps) := by
  unfold pieceChar?
  exact if_pos hu

theorem pieceChar?_pair {u v : Nat} (hu : 0xD800 ≤ u ∧ u ≤ 0xDBFF) (hv : 0xDC00 ≤ v ∧ v ≤ 0xDFFF)
    (ps : List Piece) : pieceChar? (.unit u :: .unit v :: ps) =
      some (Char.ofNat (0x10000 + (u - 0xD800) * 0x400 + (v - 0xDC00)), ps) := by
  have half : ¬ (u < 0xD800 ∨ 0xDFFF < u) := by omega
  have first : ¬ 0xDBFF < u := by omega
  rw [pieceChar?, if_neg half, if_neg first, if_pos hv]

theorem Characters.charsOnto {ps : List Piece} {cs : List Char} (h : Characters ps cs)
    (done : List Char) : charsOnto done ps = some (done.reverse ++ cs) := by
  induction h generalizing done with
  | nil => rw [charsOnto_nil, List.append_nil]
  | char c h ih =>
    rw [charsOnto_cons done rfl, ih]
    simp
  | unit hu h ih =>
    rw [charsOnto_cons done (pieceChar?_unit hu _), ih]
    simp
  | pair hu hv h ih =>
    rw [charsOnto_cons done (pieceChar?_pair hu hv _), ih]
    simp

/-- The first character of a string, and the others. -/
theorem characters_cons {ps rest : List Piece} {cs : List Char} {c : Char}
    (h : pieceChar? ps = some (c, rest)) (hr : Characters rest cs) : Characters ps (c :: cs) := by
  unfold pieceChar? at h
  split at h
  · cases h
  · obtain ⟨rfl, rfl⟩ := Prod.mk.inj (Option.some.inj h)
    exact .char _ hr
  · split at h
    · rename_i hu
      obtain ⟨rfl, rfl⟩ := Prod.mk.inj (Option.some.inj h)
      exact .unit hu hr
    · split at h
      · cases h
      · split at h
        · split at h
          · rename_i hv
            obtain ⟨rfl, rfl⟩ := Prod.mk.inj (Option.some.inj h)
            exact .pair (by omega) hv hr
          · cases h
        · cases h

theorem characters_of_charsOnto {ps : List Piece} {done r : List Char}
    (h : charsOnto done ps = some r) : ∃ cs, r = done.reverse ++ cs ∧ Characters ps cs := by
  induction done, ps using charsOnto.induct with
  | case1 done =>
    rw [charsOnto_nil] at h
    exact ⟨[], by simpa using (Option.some.inj h).symm, .nil⟩
  | case2 done p ps c rest hp _ ih =>
    rw [charsOnto_cons done hp] at h
    obtain ⟨cs, rfl, hcs⟩ := ih h
    exact ⟨c :: cs, by simp, characters_cons hp hcs⟩
  | case3 done p ps hp =>
    rw [charsOnto] at h
    split at h
    · rename_i hp'
      rw [hp] at hp'
      cases hp'
    · cases h

theorem text?_eq_some {ps : List Piece} {s : String} : text? ps = some s ↔ Characters ps s.toList := by
  unfold text?
  rw [Option.map_eq_some_iff]
  constructor
  · rintro ⟨cs, hcs, rfl⟩
    obtain ⟨cs, rfl, h⟩ := characters_of_charsOnto hcs
    rw [String.toList_ofList]
    exact h
  · intro h
    exact ⟨s.toList, h.charsOnto [], String.ofList_toList⟩

theorem exists_left_of_mem {α β : Type} {R : α → β → Prop} {as : List α} {bs : List β} {b : β}
    (h : List.Forall₂ R as bs) (hb : b ∈ bs) : ∃ a ∈ as, R a b := by
  obtain ⟨i, hi, rfl⟩ := List.mem_iff_getElem.1 hb
  have hi' : i < as.length := h.length_eq ▸ hi
  exact ⟨as[i], List.getElem_mem hi', h.get hi' hi⟩

theorem foldl_digits_ge (n : Nat) (ds : List Nat) : n ≤ ds.foldl (fun n d => 10 * n + d) n := by
  induction ds generalizing n with
  | nil => exact Nat.le_refl n
  | cons d ds ih => exact Nat.le_trans (by omega) (ih (10 * n + d))

/-- Digits are all taken exactly if their number fits. -/
theorem gather_eq {n m : Nat} {ds : List Nat} (hn : n ≤ Text.maxUnsigned64) : gather n ds = (m, []) ↔
    m = ds.foldl (fun n d => 10 * n + d) n ∧ m ≤ Text.maxUnsigned64 := by
  induction ds generalizing n with
  | nil =>
    simp only [gather, List.foldl_nil, Prod.mk.injEq, and_true]
    constructor
    · rintro rfl
      exact ⟨rfl, hn⟩
    · exact fun h => h.1.symm
  | cons d ds ih =>
    rw [gather, List.foldl_cons]
    split
    · rename_i hd
      exact ih hd
    · rename_i hd
      have hge := foldl_digits_ge (10 * n + d) ds
      constructor
      · simp
      · omega

namespace Numeral

theorem number?_natural {n : Numeral} {k : Nat} : n.number? = some (.natural k) ↔
    n.negative = false ∧ n.fraction = [] ∧ n.exponent = none ∧ k = numberOf n.whole ∧
      k ≤ Text.maxUnsigned64 := by
  unfold number?
  cases hg : gather 0 n.whole with
  | mk whole excess =>
    dsimp only
    constructor
    · intro h
      split at h
      · rename_i hc
        obtain ⟨hf, he, rfl, hs⟩ := hc
        obtain rfl : whole = k := by simpa using h
        exact ⟨by simpa using hs, hf, he, (gather_eq (Nat.zero_le _)).1 hg⟩
      · split at h
        · simp at h
        · simp at h
    · rintro ⟨hs, hf, he, hk⟩
      obtain ⟨rfl, rfl⟩ := Prod.mk.inj (hg.symm.trans ((gather_eq (Nat.zero_le _)).2 hk))
      simp [hs, hf, he]

theorem number?_below {n : Numeral} {k : Nat} : n.number? = some (.below k) ↔
    n.negative = true ∧ n.fraction = [] ∧ n.exponent = none ∧ k = numberOf n.whole ∧
      0 < k ∧ k ≤ 2 ^ 63 := by
  unfold number?
  cases hg : gather 0 n.whole with
  | mk whole excess =>
    dsimp only
    constructor
    · intro h
      split at h
      · simp at h
      · rename_i hfirst
        split at h
        · rename_i hc
          obtain ⟨hf, he, rfl, hpos, hle⟩ := hc
          obtain rfl : whole = k := by simpa using h
          refine ⟨?_, hf, he, ((gather_eq (Nat.zero_le _)).1 hg).1, hpos, hle⟩
          simpa [hf, he] using hfirst
        · simp at h
    · rintro ⟨hs, hf, he, hk, hpos, hle⟩
      have hmax : k ≤ Text.maxUnsigned64 := Nat.le_trans hle (by decide)
      obtain ⟨rfl, rfl⟩ := Prod.mk.inj (hg.symm.trans ((gather_eq (Nat.zero_le _)).2 ⟨hk, hmax⟩))
      rw [if_neg (by simp [hs]), if_pos ⟨hf, he, rfl, hpos, hle⟩]

end Numeral

/-- What a leaf stands for. Whole numbers are exact as far as 64 bits reach. -/
inductive Leaf.Means : Leaf → Json → Prop where
  | null : Means .null .null
  | bool (b : Bool) : Means (.bool b) (.bool b)
  | string {ps : List Piece} {cs : List Char} (h : Characters ps cs) :
      Means (.string ps) (.string (String.ofList cs))
  | natural {n : Numeral} (hs : n.negative = false) (hf : n.fraction = []) (he : n.exponent = none)
      (h : numberOf n.whole ≤ Text.maxUnsigned64) :
      Means (.numeral n) (.number (.natural (numberOf n.whole)))
  | below {n : Numeral} (hs : n.negative = true) (hf : n.fraction = []) (he : n.exponent = none)
      (h : 0 < numberOf n.whole ∧ numberOf n.whole ≤ 2 ^ 63) :
      Means (.numeral n) (.number (.below (numberOf n.whole)))
  | float {n : Numeral} {x : Float} (h : n.number? = some (.float x)) :
      Means (.numeral n) (.number (.float x))

theorem Leaf.value?_eq_some {l : Leaf} {v : Json} : l.value? = some v ↔ l.Means v := by
  constructor
  · intro h
    cases l with
    | null => obtain rfl := Option.some.inj h; exact .null
    | bool b => obtain rfl := Option.some.inj h; exact .bool b
    | string ps =>
      obtain ⟨s, hs, rfl⟩ := Option.map_eq_some_iff.1 h
      rw [← String.ofList_toList (s := s)]
      exact .string (text?_eq_some.1 hs)
    | numeral n =>
      obtain ⟨m, hm, rfl⟩ := Option.map_eq_some_iff.1 h
      cases m with
      | natural k =>
        obtain ⟨hs, hf, he, rfl, hk⟩ := Numeral.number?_natural.1 hm
        exact .natural hs hf he hk
      | below k =>
        obtain ⟨hs, hf, he, rfl, hk⟩ := Numeral.number?_below.1 hm
        exact .below hs hf he hk
      | float x => exact .float hm
  · intro h
    cases h with
    | null => rfl
    | bool b => rfl
    | string h => rw [value?, text?_eq_some.2 (by rwa [String.toList_ofList])]; rfl
    | natural hs hf he h => rw [value?, Numeral.number?_natural.2 ⟨hs, hf, he, rfl, h⟩]; rfl
    | below hs hf he h => rw [value?, Numeral.number?_below.2 ⟨hs, hf, he, rfl, h⟩]; rfl
    | float h => rw [value?, h]; rfl

/-- What a tree stands for, if at most `depth` containers are open inside each other. -/
inductive Tree.Means : Nat → Tree → Json → Prop where
  | leaf {depth : Nat} {l : Leaf} {v : Json} (h : l.Means v) : Means depth (.leaf l) v
  | array {depth : Nat} {ts : List Tree} {vs : List Json} (hl : ts.length = vs.length)
      (h : ∀ p ∈ ts.zip vs, Means depth p.1 p.2) : Means (depth + 1) (.array ts) (.array vs)
  | object {depth : Nat} {ms : List (List Piece × Tree)} {given members : List (String × Json)}
      (hl : ms.length = given.length) (hn : ∀ p ∈ ms.zip given, Characters p.1.1 p.2.1.toList)
      (h : ∀ p ∈ ms.zip given, Means depth p.1.2 p.2.2) (hm : Merges given members) :
      Means (depth + 1) (.object ms) (.object members)

namespace Tree

theorem values?_eq_some {depth : Nat} {done r : List Json} {ts : List Tree} :
    values? depth done ts = some r ↔
      ∃ vs, r = done.reverse ++ vs ∧ List.Forall₂ (fun t v => value? depth t = some v) ts vs := by
  induction ts generalizing done with
  | nil => simp [values?, eq_comm]
  | cons t ts ih =>
    rw [values?]
    cases ht : value? depth t with
    | none => simp [List.forall₂_cons_left_iff, ht]
    | some v =>
      simp only [ih, List.forall₂_cons_left_iff, ht]
      constructor
      · rintro ⟨vs, rfl, h⟩
        exact ⟨v :: vs, by simp, v, vs, rfl, h, rfl⟩
      · rintro ⟨_, rfl, u, us, hu, h, rfl⟩
        obtain rfl := Option.some.inj hu
        exact ⟨us, by simp, h⟩

theorem memberValues?_eq_some {depth : Nat} {done r : List (String × Json)}
    {ms : List (List Piece × Tree)} : memberValues? depth done ms = some r ↔
      ∃ given, r = done.reverse ++ given ∧ List.Forall₂
        (fun m g => text? m.1 = some g.1 ∧ value? depth m.2 = some g.2) ms given := by
  induction ms generalizing done with
  | nil => simp [memberValues?, eq_comm]
  | cons m ms ih =>
    obtain ⟨s, t⟩ := m
    rw [memberValues?]
    cases hs : text? s with
    | none => simp [List.forall₂_cons_left_iff, hs]
    | some name =>
      cases ht : value? depth t with
      | none => simp [List.forall₂_cons_left_iff, hs, ht]
      | some v =>
        simp only [ih, List.forall₂_cons_left_iff, hs, ht]
        constructor
        · rintro ⟨given, rfl, h⟩
          exact ⟨(name, v) :: given, by simp, (name, v), given, ⟨rfl, rfl⟩, h, rfl⟩
        · rintro ⟨_, rfl, ⟨n, u⟩, us, ⟨hn, hu⟩, h, rfl⟩
          obtain rfl := Option.some.inj hn
          obtain rfl := Option.some.inj hu
          exact ⟨us, by simp, h⟩

theorem value?_array {depth : Nat} {ts : List Tree} {v : Json} :
    value? depth (.array ts) = some v ↔ ∃ d vs, depth = d + 1 ∧ v = .array vs ∧
      List.Forall₂ (fun t v => value? d t = some v) ts vs := by
  cases depth with
  | zero => simp [value?]
  | succ d =>
    rw [value?, Option.map_eq_some_iff]
    simp only [values?_eq_some, List.reverse_nil, List.nil_append]
    constructor
    · rintro ⟨vs, ⟨_, rfl, h⟩, rfl⟩
      exact ⟨d, vs, rfl, rfl, h⟩
    · rintro ⟨_, vs, ⟨⟩, rfl, h⟩
      exact ⟨vs, ⟨vs, rfl, h⟩, rfl⟩

theorem value?_object {depth : Nat} {ms : List (List Piece × Tree)} {v : Json} :
    value? depth (.object ms) = some v ↔ ∃ d given, depth = d + 1 ∧ v = .object (merged given) ∧
      List.Forall₂ (fun m g => text? m.1 = some g.1 ∧ value? d m.2 = some g.2) ms given := by
  cases depth with
  | zero => simp [value?]
  | succ d =>
    rw [value?, Option.map_eq_some_iff]
    simp only [memberValues?_eq_some, List.reverse_nil, List.nil_append]
    constructor
    · rintro ⟨given, ⟨_, rfl, h⟩, rfl⟩
      exact ⟨d, given, rfl, rfl, h⟩
    · rintro ⟨_, given, ⟨⟩, rfl, h⟩
      exact ⟨given, ⟨given, rfl, h⟩, rfl⟩

/-- The reader finds what a tree stands for, and nothing where it stands for nothing. -/
theorem value?_eq_some {depth : Nat} {t : Tree} {v : Json} :
    value? depth t = some v ↔ t.Means depth v := by
  constructor
  · intro h
    induction depth generalizing t v with
    | zero =>
      cases t with
      | leaf l => exact .leaf (Leaf.value?_eq_some.1 h)
      | array ts => cases h
      | object ms => cases h
    | succ d ih =>
      cases t with
      | leaf l => exact .leaf (Leaf.value?_eq_some.1 h)
      | array ts =>
        obtain ⟨_, vs, hd, rfl, hall⟩ := value?_array.1 h
        obtain rfl := Nat.succ.inj hd
        obtain ⟨hl, hzip⟩ := List.forall₂_iff_zip.1 hall
        exact .array hl (fun p hp => ih (hzip hp))
      | object ms =>
        obtain ⟨_, given, hd, rfl, hall⟩ := value?_object.1 h
        obtain rfl := Nat.succ.inj hd
        obtain ⟨hl, hzip⟩ := List.forall₂_iff_zip.1 hall
        exact .object hl (fun p hp => text?_eq_some.1 (hzip hp).1) (fun p hp => ih (hzip hp).2)
          (merges_merged given)
  · intro h
    induction h with
    | leaf h => exact Leaf.value?_eq_some.2 h
    | array hl _ ih =>
      exact value?_array.2 ⟨_, _, rfl, rfl, List.forall₂_iff_zip.2 ⟨hl, fun hp => ih _ hp⟩⟩
    | object hl hn _ hm ih =>
      obtain rfl := merges_iff.1 hm
      exact value?_object.2 ⟨_, _, rfl, rfl, List.forall₂_iff_zip.2
        ⟨hl, fun hp => ⟨text?_eq_some.2 (hn _ hp), ih _ hp⟩⟩⟩

end Tree

end StyledMap.Json
