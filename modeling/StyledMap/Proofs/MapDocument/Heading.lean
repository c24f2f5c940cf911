import StyledMap.Proofs.MapDocument.Items
import StyledMap.Proofs.Xml.Mentions

/-! The heading of a document: the reference system and the background of the map. Both can be told from the
text, since no escaped value holds a quote, so maps that differ in them have different documents. -/
namespace StyledMap
namespace Xml

theorem escape_injective {s t : List Char} (h : escape s = escape t) : s = t := by
  have hs := scan_value_escape ⟨false, "", []⟩ [] (.inl rfl) s []
  have ht := scan_value_escape ⟨false, "", []⟩ [] (.inl rfl) t []
  rw [h, ht] at hs
  simpa [eq_comm] using hs

/-- A quoted value ends where its quote does. -/
theorem quoted_inj {s t x y : List Char} :
    escape s ++ '\"' :: x = escape t ++ '\"' :: y ↔ s = t ∧ x = y := by
  constructor
  · intro h
    have hquote (cs : List Char) : ∀ d ∈ escape cs, d ≠ '\"' := by
      rintro d hd rfl
      exact not_mem_escape (by decide) cs hd
    obtain ⟨hs, hx⟩ := takeWhile_ne_append (hquote s) x
    obtain ⟨ht, hy⟩ := takeWhile_ne_append (hquote t) y
    rw [h] at hs hx
    exact ⟨escape_injective (hs.symm.trans ht), (List.cons.inj (hx.symm.trans hy)).2⟩
  · rintro ⟨rfl, rfl⟩
    rfl

end Xml

namespace MapDocument
open Xml (layout Item)

/-- Between the declarations and the items stands the heading. -/
theorem layout_root (table : List Threshold) (srs background : String) (items : List Item) :
    layout 0 (marks table (.group "Map" [("srs", srs), ("background-color", background)] items)) =
      (layout 0 (.line declaration :: declarations table) ++ "<Map srs=\"".toList) ++
        (Xml.escape srs.toList ++ '\"' :: (" background-color=\"".toList ++
          (Xml.escape background.toList ++ '\"' :: ('>' :: '\n' ::
            (layout 1 (Item.allMarks items) ++ Xml.line 0 (Xml.tagEnd "Map")))))) := by
  rw [layout_marks, Xml.layout_group]
  simp [Xml.tagStart, Xml.attributeText]

/-- The same map in two reference systems, or on two backgrounds, has two documents. -/
theorem compile_eq_iff {styles : List Style} {zooms : List Float} {layers : List Layer}
    {srs srs' background background' : String} {document document' : MapDocument}
    (h : (compile styles zooms layers srs background).2 = .ok document)
    (h' : (compile styles zooms layers srs' background').2 = .ok document') :
    document = document' ↔ srs = srs' ∧ background = background' := by
  constructor
  · rintro rfl
    obtain ⟨root, hroot, hdocument⟩ := compile_ok h
    obtain ⟨root', hroot', hdocument'⟩ := compile_ok h'
    obtain ⟨drawn, hdrawn, rfl⟩ := mapItem_ok hroot
    obtain ⟨drawn', hdrawn', rfl⟩ := mapItem_ok hroot'
    obtain rfl : drawn = drawn' := Except.ok.inj (hdrawn.symm.trans hdrawn')
    rw [hdocument, MapDocument.mk.injEq, String.ofList_inj, layout_root, layout_root,
      List.append_cancel_left_eq, Xml.quoted_inj, List.append_cancel_left_eq, Xml.quoted_inj,
      String.toList_inj, String.toList_inj] at hdocument'
    exact ⟨hdocument'.1, hdocument'.2.1⟩
  · rintro ⟨rfl, rfl⟩
    exact Except.ok.inj (h.symm.trans h')

end MapDocument
end StyledMap
