import StyledMap.Drawing.LayerReader
import StyledMap.Drawing.StyleReader
import StyledMap.Drawing.Zooms
import StyledMap.Proofs.Json.Trimming

/-! Descriptions without the blanks around them. All that is read of a text is the JSON that it spells, so
what can be read at all is read the same when it is trimmed. -/
namespace StyledMap.Drawing
open Json (Tree)

/-- A reader looks at nothing but the JSON of a text. -/
structure ReadsJson {α : Type} (read : String → Except Fault α) : Prop where
  parsed : ∀ text a, read text = .ok a → ∃ t, Tree.parse? text = some t
  same : ∀ text text', Tree.parse? text = Tree.parse? text' → read text = read text'

theorem ReadsJson.trimmed {α : Type} {read : String → Except Fault α} (hr : ReadsJson read)
    {text : String} {a : α} (h : read text = .ok a) : read (Text.trimmed text) = .ok a := by
  obtain ⟨t, ht⟩ := hr.parsed text a h
  rw [← h]
  exact hr.same _ _ ((Tree.parse?_trimmed ht).trans ht.symm)

theorem readsJson_styles : ReadsJson readStyles where
  parsed text styles h := by
    unfold readStyles styleEntries? at h
    cases ht : Tree.parse? text with
    | none => simp [ht] at h
    | some t => exact ⟨t, rfl⟩
  same text text' h := by rw [readStyles, readStyles, styleEntries?, styleEntries?, h]

theorem readsJson_layers : ReadsJson readLayers where
  parsed text layers h := by
    unfold readLayers layerEntries? at h
    cases ht : Tree.parse? text with
    | none => simp [ht] at h
    | some t => exact ⟨t, rfl⟩
  same text text' h := by rw [readLayers, readLayers, layerEntries?, layerEntries?, h]

end StyledMap.Drawing
