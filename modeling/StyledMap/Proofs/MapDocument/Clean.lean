import StyledMap.Proofs.MapDocument.Items

/-! The characters of a map document. Of legal texts only legal characters come, also in what the
compiler adds: the declaration, the thresholds and their numbers. -/
namespace StyledMap.MapDocument
open Xml (Clean)

theorem clean_plainText (x : Float) : Clean (Decimal.plainText x).toList := by
  have hall : Clean Decimal.plainChars := by decide
  exact fun c hc => hall c (Decimal.plainText_chars x c hc)

theorem clean_definition (t : Threshold) : Clean t.definition.toList := by
  have helement : Clean t.kind.element.toList := by
    cases t.kind <;> decide
  have hnumber := clean_plainText t.denominator
  simp [Threshold.definition, helement, hnumber, Xml.isLegal]

theorem clean_name (t : Threshold) : Clean t.name.toList :=
  Xml.clean_of_isName (Threshold.isName_nameOf t.kind t.zoom)

theorem clean_declarations (table : List Threshold) :
    ∀ m ∈ declarations table, Clean m.text := by
  have hentity : ∀ t ∈ table, Clean (entityLine t).text := by
    intro t _
    have hname := clean_name t
    have hdefinition := clean_definition t
    simp [entityLine, Xml.Mark.text, hname, hdefinition, Xml.isLegal]
  have hopen : Clean "<!DOCTYPE Map [".toList := by decide
  have hclose : Clean "]>".toList := by decide
  exact forall_declarations hopen hentity hclose

/-- A document that is compiled of legal texts is clean. -/
theorem compile_clean {styles : List Style} {zooms : List Float} {layers : List Layer}
    {srs background : String} {document : MapDocument} (hs : ∀ s ∈ styles, s.Legal)
    (hl : ∀ l ∈ layers, l.Legal) (hsrs : Xml.Legal srs.toList)
    (hbackground : Xml.Legal background.toList)
    (h : (compile styles zooms layers srs background).2 = .ok document) :
    Clean document.text.toList := by
  obtain ⟨root, hroot, rfl⟩ := compile_ok h
  have hsound := mapItem_sound hs hl hsrs hbackground hroot
  have hdeclaration : Clean declaration := by decide
  rw [String.toList_ofList]
  apply Xml.clean_layout
  unfold marks
  rw [List.forall_mem_cons, List.forall_mem_append]
  exact ⟨hdeclaration, clean_declarations _, hsound.clean (isName_entityNames _)⟩

end StyledMap.MapDocument
