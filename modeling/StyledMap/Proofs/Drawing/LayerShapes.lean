import StyledMap.Proofs.Drawing.Rewriting
import StyledMap.Proofs.Json.Shapes

/-! Texts that have the shape of layers, and what then stands in them. A source has the members of its
object but the kind, each name once, at its first place and with its last value. -/
namespace StyledMap.Drawing
open Json (Tree Record Field givenAs Merges merged)

inductive StatusEntry.Shape : StatusEntry → Tree → Prop where
  | flag (b : Bool) : Shape (.flag b) (.leaf (.bool b))
  | word {s : String} {t : Tree} (h : t.IsText s) : Shape (.word s) t

/-- An object that gives its kind once, whatever else it holds. -/
def SourceEntry.Shape (depth : Nat) (e : SourceEntry) (t : Tree) : Prop :=
  ∃ given, t.Gives depth given ∧ givenAs ["kind"] given = [.string e.kind] ∧
    Merges (given.filter (fun g => g.1 != "kind")) e.fields

namespace LayerEntry

def nameField : Field := ⟨0, ["name"]⟩
def styleField : Field := ⟨1, ["style", "styleId", "style_id"]⟩
def srsField : Field := ⟨2, ["srs"]⟩
def statusField : Field := ⟨3, ["status"]⟩
def sourceField : Field := ⟨4, ["source"]⟩

/-- A record of these fields; the status may be missing or null. -/
def Shape (e : LayerEntry) (t : Tree) : Prop :=
  ∃ r, Record.ofTree? [nameField, styleField, srsField, statusField, sourceField] t = some r ∧
    (∃ u, r.field? nameField = some u ∧ u.IsText e.name) ∧
    (∃ u, r.field? styleField = some u ∧ u.IsText e.style) ∧
    (∃ u, r.field? srsField = some u ∧ u.IsText e.srs) ∧
    Tree.Maybe StatusEntry.Shape e.status (r.field? statusField) ∧
    ∃ u, r.field? sourceField = some u ∧ e.source.Shape (Json.depthLimit - 3) u

/-- The text is an array of layers that hold these entries. -/
def ShapeOf (entries : List LayerEntry) (text : String) : Prop :=
  ∃ t : Tree, t.Spells text.toList ∧ t.ListOf Shape entries

end LayerEntry

theorem StatusEntry.ofTree?_eq_some {e : StatusEntry} {t : Tree} : ofTree? t = some e ↔ e.Shape t := by
  constructor
  · intro h
    cases t with
    | array ts | object ms => cases h
    | leaf l => cases l with
      | null | numeral => cases h
      | bool b =>
        obtain rfl := Option.some.inj h
        exact .flag b
      | string ps =>
        obtain ⟨s, hs, rfl⟩ := Option.map_eq_some_iff.1 h
        exact .word (Tree.string?_eq_some.1 hs)
  · intro h
    cases h with
    | flag b => rfl
    | word h =>
      obtain ⟨ps, rfl, hs⟩ := h
      rw [ofTree?, Json.text?_eq_some.2 hs]
      rfl

theorem StatusEntry.Shape.isNull {e : StatusEntry} {t : Tree} (h : e.Shape t) : t.isNull = false := by
  cases h with
  | flag b => rfl
  | word h => exact h.isNull

/-- The names of members are read where the members are. -/
theorem memberNames?_of_gives {depth : Nat} {ms : List (List Json.Piece × Tree)}
    {given : List (String × Json)} (h : (Tree.object ms).Gives depth given) :
    ∃ named, Json.memberNames? [] ms = some named ∧ ∀ names,
      List.Forall₂ (fun (t : Tree) v => t.value? depth = some v) (givenAs names named)
        (givenAs names given) := by
  obtain ⟨_, ⟨⟩, h⟩ := h
  have hread : List.Forall₂
      (fun m g => Json.text? m.1 = some g.1 ∧ m.2.value? depth = some g.2) ms given :=
    h.imp fun m g h => ⟨Json.text?_eq_some.2 h.1, Tree.value?_eq_some.2 h.2⟩
  obtain ⟨named, hnamed, hvalues⟩ :=
    Json.memberNames?_of_forall₂ (R := fun t v => t.value? depth = some v) hread
  exact ⟨named, hnamed, Json.givenAs_forall₂ (R := fun (t : Tree) v => t.value? depth = some v) hvalues⟩

theorem SourceEntry.ofTree?_iff {depth : Nat} {e : SourceEntry} {t : Tree} :
    ofTree? (depth + 1) t = some e ↔ e.Shape depth t := by
  constructor
  · intro h
    cases t with
    | leaf l | array ts => cases h
    | object ms =>
      obtain ⟨named, t, kind, fields, hn, ht, hkind, hv, rfl⟩ := ofTree?_eq_some.1 h
      obtain ⟨given, hgives, rfl⟩ := Tree.value?_eq_object.1 hv
      obtain ⟨_, hn', hvalues⟩ := memberNames?_of_gives hgives
      obtain rfl := Option.some.inj (hn.symm.trans hn')
      have hone := hvalues ["kind"]
      rw [ht] at hone
      obtain ⟨v, _, hv, ⟨⟩, hgivenAs⟩ := List.forall₂_cons_left_iff.1 hone
      rw [(Tree.string?_eq_some.1 hkind).value?] at hv
      obtain rfl := Option.some.inj hv
      refine ⟨given, hgives, hgivenAs, Json.merges_iff.2 ?_⟩
      exact Json.merged_filter (fun name => name != "kind") given
  · rintro ⟨given, hgives, hkind, hfields⟩
    obtain ⟨ms, rfl, -⟩ := id hgives
    obtain ⟨named, hnamed, hvalues⟩ := memberNames?_of_gives hgives
    have hone := hvalues ["kind"]
    rw [hkind] at hone
    obtain ⟨u, _, hu, hnil, hsole⟩ := List.forall₂_cons_right_iff.1 hone
    cases hnil
    have htext : u.string? = some e.kind :=
      Tree.string?_eq_some.2 (Tree.isText_iff_means.2 (Tree.value?_eq_some.1 hu))
    refine ofTree?_eq_some.2 ⟨named, u, e.kind, merged given, hnamed, hsole, htext,
      Tree.value?_eq_object.2 ⟨given, hgives, rfl⟩, ?_⟩
    rw [Json.merged_filter (fun name => name != "kind"), ← Json.merges_iff.1 hfields]

theorem LayerEntry.ofTree?_eq_some {e : LayerEntry} {t : Tree} :
    ofTree? (Json.depthLimit - 1) t = some e ↔ e.Shape t := by
  have hdepth : Json.depthLimit - 1 - 1 = (Json.depthLimit - 3) + 1 := rfl
  have htext : ∀ s u, Tree.string? u = some s ↔ u.IsText s := fun _ _ => Tree.string?_eq_some
  have hstatus : ∀ e u, StatusEntry.ofTree? u = some e ↔ e.Shape u :=
    fun _ _ => StatusEntry.ofTree?_eq_some
  have hsource : ∀ e u, SourceEntry.ofTree? (Json.depthLimit - 3 + 1) u = some e ↔
      e.Shape (Json.depthLimit - 3) u := fun _ _ => SourceEntry.ofTree?_iff
  obtain ⟨name, style, srs, status, source⟩ := e
  simp only [ofTree?, hdepth, Option.bind_eq_bind, Option.bind_eq_some_iff, Option.pure_def,
    Record.required?_eq_some htext, Record.required?_eq_some hsource,
    Record.optional?_eq_some hstatus (fun _ _ => StatusEntry.Shape.isNull), Option.some.injEq]
  constructor
  · rintro ⟨r, hr, _, hname, _, hstyle, _, hsrs, _, hstatus, _, hsource, ⟨⟩⟩
    exact ⟨r, hr, hname, hstyle, hsrs, hstatus, hsource⟩
  · rintro ⟨r, hr, hname, hstyle, hsrs, hstatus, hsource⟩
    exact ⟨r, hr, _, hname, _, hstyle, _, hsrs, _, hstatus, _, hsource, rfl⟩

/-- The reader finds the entries of every text of the shape, and of no other. -/
theorem layerEntries?_eq_some {text : String} {entries : List LayerEntry} :
    layerEntries? text = some entries ↔ LayerEntry.ShapeOf entries text := by
  unfold layerEntries? LayerEntry.ShapeOf
  simp only [Option.bind_eq_some_iff, Tree.parse?_eq_some,
    Tree.list?_eq_some (fun _ _ => LayerEntry.ofTree?_eq_some)]

end StyledMap.Drawing
