import StyledMap.Decimal.Layout

/-! The characters of numbers: digits alone, or with a sign and a point, or a word instead. -/
namespace StyledMap
open Text (ofNat ofNatOnto digitChar)

def Text.decimalChars : List Char := "0123456789".toList

theorem Text.digitChar_mem {d : Nat} (h : d < 10) : digitChar d ∈ decimalChars := by
  match d, h with
  | 0, _ | 1, _ | 2, _ | 3, _ | 4, _ | 5, _ | 6, _ | 7, _ | 8, _ | 9, _ => decide

theorem Text.ofNat_chars (n : Nat) : ∀ c ∈ ofNat n, c ∈ decimalChars := by
  have onto (n : Nat) (t : List Char) (ht : ∀ c ∈ t, c ∈ decimalChars) :
      ∀ c ∈ ofNatOnto n t, c ∈ decimalChars := by
    induction n, t using ofNatOnto.induct with
    | case1 n t h =>
      rw [ofNatOnto, if_pos h]
      exact List.forall_mem_cons.2 ⟨digitChar_mem h, ht⟩
    | case2 n t h ih =>
      rw [ofNatOnto, if_neg h]
      exact ih (List.forall_mem_cons.2 ⟨digitChar_mem (Nat.mod_lt _ (by decide)), ht⟩)
  exact onto n [] (by simp)

namespace Decimal

/-- All that the plain text of a double is written with. -/
def plainChars : List Char := Text.decimalChars ++ "-.Nafin".toList

theorem ofNat_plain (n : Nat) : ∀ c ∈ ofNat n, c ∈ plainChars :=
  fun c hc => List.mem_append_left _ (Text.ofNat_chars n c hc)

theorem zeros_plain (n : Nat) : ∀ c ∈ zeros n, c ∈ plainChars := by
  intro c hc
  obtain rfl := List.eq_of_mem_replicate hc
  decide

theorem place_plain {ds : List Char} (h : ∀ c ∈ ds, c ∈ plainChars) (p : Int) :
    ∀ c ∈ Layout.plain.place ds p, c ∈ plainChars := by
  have hzero : '0' ∈ plainChars := by decide
  have hpoint : '.' ∈ plainChars := by decide
  unfold Layout.place
  split
  · simp only [List.forall_mem_cons, List.forall_mem_append]
    exact ⟨hzero, hpoint, zeros_plain _, h⟩
  · split
    · simp only [List.forall_mem_append]
      exact ⟨⟨h, zeros_plain _⟩, by simp [Layout.plain]⟩
    · simp only [List.forall_mem_cons, List.forall_mem_append]
      exact ⟨fun c hc => h c (List.mem_of_mem_take hc), hpoint,
        fun c hc => h c (List.mem_of_mem_drop hc)⟩

theorem minus_plain {cs : List Char} (h : ∀ c ∈ cs, c ∈ plainChars) (negative : Bool) :
    ∀ c ∈ minus negative cs, c ∈ plainChars := by
  cases negative with
  | false => exact h
  | true => exact List.forall_mem_cons.2 ⟨by decide, h⟩

theorem plainText_chars (x : Float) : ∀ c ∈ (plainText x).toList, c ∈ plainChars := by
  unfold plainText Layout.text
  split
  · simp [plainChars]
  · rename_i negative _
    rw [String.toList_ofList]
    exact minus_plain (by simp [plainChars]) negative
  · rename_i negative m e _
    rw [String.toList_ofList]
    apply minus_plain
    split
    · exact List.forall_mem_cons.2 ⟨by decide, by simp [Layout.plain]⟩
    · exact place_plain (ofNat_plain _) _

end Decimal
end StyledMap
