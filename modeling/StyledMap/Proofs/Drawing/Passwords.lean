import StyledMap.Proofs.Drawing.LayerTexts
import StyledMap.Proofs.Json.Differences

/-! Texts of layers that differ in passwords alone. Both are read or neither is, for the same fault, and
the layers are the same but for their passwords. -/
namespace StyledMap
open Json (Tree)

def Layer.Source.masked : Layer.Source → Layer.Source
  | .database d => .database { d with password := "" }
  | .file f => .file f

/-- A layer without its password. -/
def Layer.masked (l : Layer) : Layer := { l with source := l.source.masked }

def Layer.Source.SameButPassword (s s' : Layer.Source) : Prop := s.masked = s'.masked
def Layer.SameButPassword (l l' : Layer) : Prop := l.masked = l'.masked

theorem Layer.Source.SameButPassword.refl (s : Layer.Source) : s.SameButPassword s := rfl

theorem Layer.SameButPassword.head {l l' : Layer} (h : l.SameButPassword l') :
    l.name = l'.name ∧ l.style = l'.style := by
  unfold SameButPassword masked at h
  obtain ⟨hname, hstyle, -⟩ := Layer.mk.inj h
  exact ⟨hname, hstyle⟩

namespace Drawing
open Json (Record Field Apart givenAs)
open Steps

def LegalText (t : Tree) : Prop := ∃ s, t.IsText s ∧ Xml.Legal s.toList

/-- Two sources with passwords of their own. -/
def SameSource : Tree → Tree → Prop := Tree.Differ "password" (fun t u => LegalText t ∧ LegalText u)

/-- Two layers, as objects or as arrays, whose sources differ in the password. -/
inductive SameLayer : Tree → Tree → Prop where
  | named {t u : Tree} (h : Tree.Differ "source" SameSource t u) : SameLayer t u
  | listed {before after : List Tree} {t u : Tree} (hb : before.length = 4) (h : SameSource t u) :
      SameLayer (.array (before ++ t :: after)) (.array (before ++ u :: after))

/-- Texts of the same array of layers, apart from passwords. -/
def SameButPasswords (text other : String) : Prop :=
  ∃ ts us, (Tree.array ts).Spells text.toList ∧ (Tree.array us).Spells other.toList ∧
    List.Forall₂ SameLayer ts us

theorem sameSource_value {s s' : Layer.Source} (h : s.SameButPassword s')
    (legal : ∀ t ∈ s.texts, Xml.Legal t.toList) (legal' : ∀ t ∈ s'.texts, Xml.Legal t.toList) :
    SameSource s.value.tree s'.value.tree := by
  cases s with
  | file f =>
    cases s' with
    | file f' =>
      obtain rfl : f = f' := Layer.Source.file.inj h
      exact .same _
    | database d' => cases h
  | database d =>
    cases s' with
    | file f' => cases h
    | database d' =>
      obtain ⟨driver, host, port, dbname, user, password, extent, table⟩ := d
      obtain ⟨driver', host', port', dbname', user', password', extent', table'⟩ := d'
      obtain ⟨rfl, rfl, rfl, rfl, rfl, -, rfl, rfl⟩ :=
        Layer.Database.mk.inj (Layer.Source.database.inj h)
      have hpassword : LegalText (Json.string password).tree ∧ LegalText (Json.string password').tree :=
        ⟨⟨password, Json.isText_tree _, legal password (by simp [Layer.Source.texts])⟩,
          password', Json.isText_tree _, legal' password' (by simp [Layer.Source.texts])⟩
      exact Json.differ_tree (by simp [Json.Apart, hpassword])

theorem sameLayer_value {l l' : Layer} (h : l.SameButPassword l') (legal : l.Legal)
    (legal' : l'.Legal) : SameLayer l.value.tree l'.value.tree := by
  obtain ⟨name, style, srs, status, source⟩ := l
  obtain ⟨name', style', srs', status', source'⟩ := l'
  obtain ⟨rfl, rfl, rfl, rfl, hsource⟩ := Layer.mk.inj h
  have hsource : SameSource source.value.tree source'.value.tree :=
    sameSource_value hsource legal.source legal'.source
  exact .named (Json.differ_tree (by simp [Json.Apart, hsource]))

/-- Layers that differ in passwords alone, as they are written. -/
theorem sameButPasswords_written {layers others : List Layer}
    (h : List.Forall₂ Layer.SameButPassword layers others) (legal : ∀ l ∈ layers, l.Legal)
    (legal' : ∀ l ∈ others, l.Legal) (small : ∀ l ∈ layers, l.source.SmallPort)
    (small' : ∀ l ∈ others, l.source.SmallPort) :
    SameButPasswords (Layer.written layers) (Layer.written others) := by
  refine ⟨_, _, Layer.spells_written small, Layer.spells_written small', ?_⟩
  rw [Json.treeItems_eq, Json.treeItems_eq, List.map_map, List.map_map, List.forall₂_map_left_iff,
    List.forall₂_map_right_iff]
  clear small small'
  induction h with
  | nil => exact .nil
  | cons hl _ ih =>
    obtain ⟨legal, hrest⟩ := List.forall_mem_cons.1 legal
    obtain ⟨legal', hrest'⟩ := List.forall_mem_cons.1 legal'
    exact .cons (sameLayer_value hl legal legal') (ih hrest hrest')

/-- Fields that are the same, apart from legal passwords. -/
def SameFields (fields others : List (String × Json)) : Prop :=
  List.Forall₂ (Apart "password" (fun v w =>
    (∃ s, v = .string s ∧ Xml.Legal s.toList) ∧ ∃ s, w = .string s ∧ Xml.Legal s.toList)) fields others

structure SourceEntry.Same (e e' : SourceEntry) : Prop where
  kind : e.kind = e'.kind
  fields : SameFields e.fields e'.fields

theorem legalText_value {t u : Tree} (h : LegalText t ∧ LegalText u) (depth : Nat) :
    ∃ v w, t.value? depth = some v ∧ u.value? depth = some w ∧
      (∃ s, v = .string s ∧ Xml.Legal s.toList) ∧ ∃ s, w = .string s ∧ Xml.Legal s.toList := by
  obtain ⟨⟨s, ht, hs⟩, s', hu, hs'⟩ := h
  exact ⟨_, _, ht.value? depth, hu.value? depth, ⟨s, rfl, hs⟩, s', rfl, hs'⟩

theorem SourceEntry.ofTree?_same {t u : Tree} (h : SameSource t u) (depth : Nat) :
    Option.Rel SourceEntry.Same (ofTree? (depth + 1) t) (ofTree? (depth + 1) u) := by
  cases h with
  | same t =>
    cases ofTree? (depth + 1) t with
    | none => exact .none
    | some e => exact .some ⟨rfl, Json.apart_refl _⟩
  | @object ms ns h =>
    have hvalues := Json.value?_differ (fun t u h => legalText_value h depth) h
    simp only [ofTree?, Option.bind_eq_bind]
    refine Json.rel_bind (Json.memberNames?_differ h .nil) (fun named other hall => ?_)
    have hkind : givenAs ["kind"] named = givenAs ["kind"] other :=
      Json.givenAs_eq_of_apart hall (by decide)
    rw [hkind]
    split
    · refine Json.rel_bind_self _ (fun kind => Json.rel_bind hvalues (fun v w hv => ?_))
      obtain ⟨fields, others, rfl, rfl, hfields⟩ := hv
      exact .some ⟨rfl, Json.apart_filter hfields (fun name => name != "kind")⟩
    · exact .none

theorem required?_rel {α : Type} {r r' : Record} {f : Field} {R : Tree → Tree → Prop}
    {read : Tree → Option α} {S : α → α → Prop} (h : Record.Differ f R r r')
    (hread : ∀ t u, t = u ∨ R t u → Option.Rel S (read t) (read u)) :
    Option.Rel S (r.required? f read) (r'.required? f read) :=
  Json.rel_bind h.2 hread

structure LayerEntry.Same (e e' : LayerEntry) : Prop where
  name : e.name = e'.name
  style : e.style = e'.style
  srs : e.srs = e'.srs
  status : e.status = e'.status
  source : e.source.Same e'.source

theorem LayerEntry.ofTree?_same {t u : Tree} (h : SameLayer t u) (depth : Nat) :
    Option.Rel LayerEntry.Same (ofTree? (depth + 2) t) (ofTree? (depth + 2) u) := by
  have hdiffer : Tree.DifferAt 4 "source" SameSource t u := by
    cases h with
    | named h => exact .named h
    | listed hb h => exact .listed hb h
  simp only [ofTree?, Option.bind_eq_bind]
  refine Json.rel_bind (Record.ofTree?_differAt hdiffer) (fun r r' h => ?_)
  have hsource : Option.Rel SourceEntry.Same
      (r.required? ⟨4, ["source"]⟩ (SourceEntry.ofTree? (depth + 1)))
      (r'.required? ⟨4, ["source"]⟩ (SourceEntry.ofTree? (depth + 1))) := by
    refine required?_rel h (fun t u htu => ?_)
    obtain rfl | htu := htu
    · exact SourceEntry.ofTree?_same (.same t) depth
    · exact SourceEntry.ofTree?_same htu depth
  rw [Record.required?_same (h.1 ⟨0, ["name"]⟩ (by decide) (by decide)),
    Record.required?_same (h.1 ⟨1, ["style", "styleId", "style_id"]⟩ (by decide) (by decide)),
    Record.required?_same (h.1 ⟨2, ["srs"]⟩ (by decide) (by decide)),
    Record.optional?_same (h.1 ⟨3, ["status"]⟩ (by decide) (by decide))]
  refine Json.rel_bind_self _ fun name => Json.rel_bind_self _ fun style =>
    Json.rel_bind_self _ fun srs => Json.rel_bind_self _ fun status =>
      Json.rel_bind hsource fun e e' he => ?_
  exact .some ⟨rfl, rfl, rfl, rfl, he⟩

/-! What becomes of entries. -/

theorem checkSourceFields_same {fields others : List (String × Json)} (h : SameFields fields others)
    (layer : String) :
    fields.forM (checkSourceField layer) = others.forM (checkSourceField layer) := by
  refine Steps.forM_same (h.imp (fun m n hm => ?_))
  obtain ⟨name, v⟩ := m
  obtain ⟨_, w⟩ := n
  obtain rfl : name = _ := hm.1
  obtain hvw | ⟨-, ⟨s, hs, hlegal⟩, s', hs', hlegal'⟩ := hm.2
  · obtain rfl : v = w := hvw
    rfl
  · obtain rfl : v = .string s := hs
    obtain rfl : w = .string s' := hs'
    exact (checkText_eq_ok.2 hlegal).trans (checkText_eq_ok.2 hlegal').symm

section Read
variable {fields others : List (String × Json)} (h : SameFields fields others)
include h

theorem field?_same {names : List String} (hn : "password" ∉ names) :
    field? names fields = field? names others := by
  rw [field?, field?, Json.givenAs_eq_of_apart h hn]

theorem textField?_same {names : List String} (hn : "password" ∉ names) :
    textField? names fields = textField? names others := by
  rw [textField?, textField?, field?_same h hn]

theorem flagField?_same {names : List String} (hn : "password" ∉ names) :
    flagField? names fields = flagField? names others := by
  rw [flagField?, flagField?, field?_same h hn]

theorem portField?_same : portField? fields = portField? others := by
  rw [portField?, portField?, field?_same h (by decide)]

theorem password_same : Option.Rel (fun _ _ => True) (textFieldOr? "" ["password"] fields)
    (textFieldOr? "" ["password"] others) := by
  have hrel := Json.givenAs_apart h ["password"]
  rw [textFieldOr?, textFieldOr?, field?, field?]
  generalize givenAs ["password"] fields = vs, givenAs ["password"] others = ws at hrel ⊢
  cases hrel with
  | nil => exact .some trivial
  | cons hv hrest =>
    cases hrest with
    | cons => exact .none
    | nil =>
      obtain rfl | ⟨⟨s, rfl, -⟩, s', rfl, -⟩ := hv
      · split <;> first | exact .some trivial | exact .none
      · exact .some trivial

/-- A database apart from its password, and the entry for its port. -/
theorem database?_same : Option.Rel
    (fun d d' => d.1 = d'.1 ∧
      ∀ n, (Layer.Source.database (d.2 n)).SameButPassword (.database (d'.2 n)))
    (database? fields) (database? others) := by
  simp only [database?, Option.bind_eq_bind, textField?_same h (by decide : "password" ∉ ["type"]),
    textField?_same h (by decide : "password" ∉ ["host"]), portField?_same h,
    textField?_same h (by decide : "password" ∉ ["dbname"]),
    textField?_same h (by decide : "password" ∉ ["user"]),
    flagField?_same h (by decide : "password" ∉ ["estimate_extent", "estimateExtent"]),
    textField?_same h (by decide : "password" ∉ ["table"])]
  refine Json.rel_bind_self _ fun driver => Json.rel_bind_self _ fun host =>
    Json.rel_bind_self _ fun port => Json.rel_bind_self _ fun dbname =>
      Json.rel_bind_self _ fun user => Json.rel_bind (password_same h) fun _ _ _ =>
        Json.rel_bind_self _ fun extent => Json.rel_bind_self _ fun table => ?_
  exact .some ⟨rfl, fun _ => rfl⟩

theorem file?_same : file? fields = file? others := by
  rw [file?, file?, textField?_same h (by decide), textField?_same h (by decide)]

end Read

theorem SourceEntry.source_same {e e' : SourceEntry} (h : e.Same e') (layer : String) :
    Agree Layer.Source.SameButPassword (e.source layer) (e'.source layer) := by
  have hdatabase := database?_same h.fields
  simp only [source, checkSourceFields_same h.fields layer, h.kind, file?_same h.fields]
  refine .bind_self _ (fun _ => ?_)
  by_cases hkind : e'.kind = "database"
  · rw [if_pos hkind, if_pos hkind]
    generalize database? e.fields = o, database? e'.fields = o' at hdatabase ⊢
    cases hdatabase with
    | none => exact .error _
    | some hd =>
      dsimp only
      rw [hd.1]
      exact .bind_self _ (fun n => .ok (hd.2 n))
  · rw [if_neg hkind, if_neg hkind]
    exact .refl Layer.Source.SameButPassword.refl _

theorem LayerEntry.layer_same {e e' : LayerEntry} (h : e.Same e') :
    Agree Layer.SameButPassword e.layer e'.layer := by
  simp only [layer, h.name, h.style, h.srs, h.status]
  refine .bind_self _ fun _ => .bind_self _ fun _ => .bind_self _ fun _ => .bind_self _ fun status =>
    (SourceEntry.source_same h.source e'.name).bind fun s s' hs => .ok ?_
  unfold Layer.Source.SameButPassword at hs
  simp only [Layer.SameButPassword, Layer.masked, hs]

theorem readLayers_same {text other : String} (h : SameButPasswords text other) :
    Agree (List.Forall₂ Layer.SameButPassword) (readLayers text) (readLayers other) := by
  obtain ⟨ts, us, ht, hu, hall⟩ := h
  have hentries : Option.Rel (List.Forall₂ LayerEntry.Same)
      (Json.allOf? (LayerEntry.ofTree? (Json.depthLimit - 1)) [] ts)
      (Json.allOf? (LayerEntry.ofTree? (Json.depthLimit - 1)) [] us) :=
    Json.allOf?_rel (hall.imp (fun t u h => LayerEntry.ofTree?_same h 124)) .nil
  rw [readLayers, readLayers, layerEntries?, layerEntries?, Tree.parse?_eq_some.2 ht,
    Tree.parse?_eq_some.2 hu]
  simp only [Option.bind_some, Tree.list?, Tree.items?]
  generalize Json.allOf? (LayerEntry.ofTree? (Json.depthLimit - 1)) [] ts = es,
    Json.allOf? (LayerEntry.ofTree? (Json.depthLimit - 1)) [] us = es' at hentries ⊢
  cases hentries with
  | none => exact .error _
  | some h => exact Agree.mapM (h.imp (fun e e' he => LayerEntry.layer_same he))

end Drawing
end StyledMap
