import Mathlib.Algebra.GroupWithZero.Nat

/-! The bytes of a text in UTF-8. -/
namespace StyledMap.Text

theorem fromUTF8?_eq_some {bytes : ByteArray} {text : String} :
    String.fromUTF8? bytes = some text ↔ bytes = text.toUTF8 := by
  constructor
  · intro h
    unfold String.fromUTF8? at h
    split at h
    · obtain rfl := Option.some.inj h
      rfl
    · cases h
  · rintro rfl
    simp only [String.fromUTF8?, String.toUTF8_eq_toByteArray, dif_pos text.isValidUTF8]
    rfl

theorem fromUTF8?_toUTF8 (text : String) : String.fromUTF8? text.toUTF8 = some text :=
  fromUTF8?_eq_some.2 rfl

/-- A text has as many bytes as its characters have together. -/
theorem size_toUTF8 (text : String) :
    text.toUTF8.size = (text.toList.map Char.utf8Size).sum := by
  have hchars : ∀ cs : List Char, (String.ofList cs).utf8ByteSize = (cs.map Char.utf8Size).sum := by
    intro cs
    induction cs with
    | nil => rfl
    | cons c cs ih =>
      rw [List.map_cons, List.sum_cons, ← ih]
      simp [String.ofList_cons]
  rw [← hchars, String.ofList_toList]
  rfl

end StyledMap.Text
