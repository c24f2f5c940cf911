import StyledMap.Drawing.LayerReader
import StyledMap.Drawing.StyleReader
import StyledMap.Drawing.Zooms
import StyledMap.Proofs.Json.Rewriting

/-! Styles, layers and scale denominators of a text written anew: whatever was read before is read
again. One lemma for each entry, from the parts of an entry to lists of them. -/
namespace StyledMap.Drawing
open Json (Tree Record Field)
open Json.Tree (Kept)

theorem params?_kept (depth : Nat) : Kept (params? depth) := by
  intro t u params h hp
  unfold params? at hp ⊢
  cases hv : t.value? depth with
  | none => simp [hv] at hp
  | some v =>
    rw [hv] at hp
    rw [Tree.value?_kept depth h hv]
    exact hp

theorem SymbolizerEntry.ofTree?_kept (depth : Nat) : Kept (SymbolizerEntry.ofTree? depth) := by
  intro t u e h he
  simp only [ofTree?, Option.bind_eq_bind, Option.bind_eq_some_iff, Option.pure_def] at he ⊢
  obtain ⟨r, hr, kind, hkind, params, hparams, he⟩ := he
  obtain ⟨r', hr', hfields⟩ := Record.ofTree?_rewritten h hr
  exact ⟨r', hr', kind, Record.required?_kept hfields (by simp) Tree.string?_kept hkind,
    params, Record.orElse?_kept hfields (by simp) (params?_kept _) hparams, he⟩

theorem RuleEntry.ofTree?_kept (depth : Nat) : Kept (RuleEntry.ofTree? depth) := by
  intro t u e h he
  simp only [ofTree?, Option.bind_eq_bind, Option.bind_eq_some_iff, Option.pure_def] at he ⊢
  obtain ⟨r, hr, filter, hfilter, minzoom, hmin, maxzoom, hmax, symbolizers, hsym, he⟩ := he
  obtain ⟨r', hr', hfields⟩ := Record.ofTree?_rewritten h hr
  exact ⟨r', hr',
    filter, Record.optional?_kept hfields (by simp) Tree.string?_kept hfilter,
    minzoom, Record.optional?_kept hfields (by simp) Tree.natural?_kept hmin,
    maxzoom, Record.optional?_kept hfields (by simp) Tree.natural?_kept hmax,
    symbolizers, Record.orElse?_kept hfields (by simp)
      (Tree.list?_kept (SymbolizerEntry.ofTree?_kept _)) hsym, he⟩

theorem StyleEntry.ofTree?_kept (depth : Nat) : Kept (StyleEntry.ofTree? depth) := by
  intro t u e h he
  simp only [ofTree?, Option.bind_eq_bind, Option.bind_eq_some_iff, Option.pure_def] at he ⊢
  obtain ⟨r, hr, name, hname, rules, hrules, he⟩ := he
  obtain ⟨r', hr', hfields⟩ := Record.ofTree?_rewritten h hr
  exact ⟨r', hr', name, Record.required?_kept hfields (by simp) Tree.string?_kept hname,
    rules, Record.orElse?_kept hfields (by simp) (Tree.list?_kept (RuleEntry.ofTree?_kept _)) hrules,
    he⟩

theorem StatusEntry.ofTree?_kept : Kept StatusEntry.ofTree? := by
  intro t u e h he
  cases t with
  | array ts | object ms => cases he
  | leaf l => cases l with
    | null | numeral => cases he
    | bool b =>
      obtain ⟨depth, v, hv, -, rfl⟩ := h
      obtain rfl := Option.some.inj hv
      exact he
    | string ps =>
      obtain ⟨s, hs, rfl⟩ := h.string
      rw [ofTree?] at he ⊢
      rw [Json.text?_pieces, ← hs]
      exact he

theorem SourceEntry.ofTree?_eq_some {depth : Nat} {ms : List (List Json.Piece × Tree)}
    {e : SourceEntry} : ofTree? depth (.object ms) = some e ↔
      ∃ named t kind fields, Json.memberNames? [] ms = some named ∧
        Json.givenAs ["kind"] named = [t] ∧ t.string? = some kind ∧
        Tree.value? depth (.object ms) = some (.object fields) ∧
        e = ⟨kind, fields.filter (fun m => m.1 != "kind")⟩ := by
  simp only [ofTree?, Option.bind_eq_bind, Option.bind_eq_some_iff, Option.pure_def]
  constructor
  · rintro ⟨named, hn, he⟩
    split at he
    · rename_i t ht
      obtain ⟨kind, hkind, he⟩ := Option.bind_eq_some_iff.1 he
      obtain ⟨v, hv, he⟩ := Option.bind_eq_some_iff.1 he
      split at he
      · rename_i fields
        exact ⟨named, t, kind, fields, hn, ht, hkind, hv, (Option.some.inj he).symm⟩
      · cases he
    · cases he
  · rintro ⟨named, t, kind, fields, hn, ht, hkind, hv, rfl⟩
    refine ⟨named, hn, ?_⟩
    rw [ht]
    exact Option.bind_eq_some_iff.2 ⟨kind, hkind, Option.bind_eq_some_iff.2 ⟨.object fields, hv, rfl⟩⟩

theorem SourceEntry.ofTree?_kept (depth : Nat) : Kept (SourceEntry.ofTree? depth) := by
  intro t u e h he
  cases t with
  | leaf l | array ts => cases he
  | object ms =>
    obtain ⟨named, t, kind, fields, hn, ht, hkind, hv, rfl⟩ := SourceEntry.ofTree?_eq_some.1 he
    obtain ⟨ms', named', rfl, hn', hfields⟩ := h.object hn
    have hone := hfields ["kind"] (by rw [ht]; exact Nat.le_refl 1)
    rw [ht] at hone
    obtain ⟨t', _, ht', ⟨⟩, hsame⟩ := List.forall₂_cons_left_iff.1 hone
    exact SourceEntry.ofTree?_eq_some.2 ⟨named', t', kind, fields, hn', hsame,
      Tree.string?_kept ht' hkind, Tree.value?_kept depth h hv, rfl⟩

theorem LayerEntry.ofTree?_kept (depth : Nat) : Kept (LayerEntry.ofTree? depth) := by
  intro t u e h he
  simp only [ofTree?, Option.bind_eq_bind, Option.bind_eq_some_iff, Option.pure_def] at he ⊢
  obtain ⟨r, hr, name, hname, style, hstyle, srs, hsrs, status, hstatus, source, hsource, he⟩ := he
  obtain ⟨r', hr', hfields⟩ := Record.ofTree?_rewritten h hr
  exact ⟨r', hr',
    name, Record.required?_kept hfields (by simp) Tree.string?_kept hname,
    style, Record.required?_kept hfields (by simp) Tree.string?_kept hstyle,
    srs, Record.required?_kept hfields (by simp) Tree.string?_kept hsrs,
    status, Record.optional?_kept hfields (by simp) StatusEntry.ofTree?_kept hstatus,
    source, Record.required?_kept hfields (by simp) (SourceEntry.ofTree?_kept _) hsource, he⟩

theorem number?_kept : Kept number? := by
  intro t u x h hx
  cases t with
  | array ts | object ms => cases hx
  | leaf l => cases l with
    | null | bool | string => cases hx
    | numeral n =>
      obtain ⟨n', rfl, hn⟩ := h.numeral
      rw [number?] at hx ⊢
      rwa [hn]

/-! Whole texts. What is read of a text is read of the value of its tree, written on one line. -/

/-- What `read` makes of a text that is an array it makes of the array written anew. -/
def TextKept {α : Type} (read : String → Except Fault α) : Prop :=
  ∀ ⦃text : String⦄ ⦃t : Tree⦄ ⦃depth : Nat⦄ ⦃v : Json⦄ ⦃a : α⦄, Tree.parse? text = some t →
    t.value? depth = some v → (∀ x ∈ v.floats, (Json.Number.float x).Returns) → read text = .ok a →
    (∃ vs, v = .array vs) ∧ read v.compact = .ok a

/-- The entries of a text. -/
def entries? {α : Type} (f : Tree → Option α) (text : String) : Option (List α) :=
  (Tree.parse? text).bind (Tree.list? f)

/-- It is enough that entries are kept, where a reader looks at nothing else and needs them. -/
theorem textKept_of_entries {α β : Type} {f : Tree → Option α} (hf : Kept f)
    {read : String → Except Fault β}
    (same : ∀ text other, entries? f text = entries? f other → read text = read other)
    (need : ∀ text, entries? f text = none → ∃ e, read text = .error e) : TextKept read := by
  intro text t depth v b ht hv hx h
  cases he : t.list? f with
  | none =>
    obtain ⟨e, he⟩ := need text (by rw [entries?, ht, Option.bind_some, he])
    rw [he] at h
    cases h
  | some as =>
    have harray : ∃ vs, v = .array vs := by
      cases t with
      | leaf l | object ms => cases he
      | array ts =>
        obtain ⟨_, vs, -, rfl, -⟩ := Tree.value?_array.1 hv
        exact ⟨vs, rfl⟩
    have spells : v.tree.Spells v.compact.toList := by
      rw [Json.compact, String.toList_ofList]
      exact (Json.returns_of_value? hv hx).spells_compact
    have again : v.tree.list? f = some as := Tree.list?_kept hf ⟨depth, v, hv, hx, rfl⟩ he
    refine ⟨harray, h ▸ same _ _ ?_⟩
    rw [entries?, entries?, ht, Tree.parse?_eq_some.2 spells, Option.bind_some, Option.bind_some, he,
      again]

theorem readStyles_kept : TextKept readStyles := by
  apply textKept_of_entries (StyleEntry.ofTree?_kept (Json.depthLimit - 1))
  · intro text other h
    unfold entries? at h
    rw [readStyles, readStyles, styleEntries?, styleEntries?, h]
  · intro text h
    unfold entries? at h
    rw [readStyles, styleEntries?, h]
    exact ⟨_, rfl⟩

theorem readLayers_kept : TextKept readLayers := by
  apply textKept_of_entries (LayerEntry.ofTree?_kept (Json.depthLimit - 1))
  · intro text other h
    unfold entries? at h
    rw [readLayers, readLayers, layerEntries?, layerEntries?, h]
  · intro text h
    unfold entries? at h
    rw [readLayers, layerEntries?, h]
    exact ⟨_, rfl⟩

theorem readZooms_kept : TextKept readZooms := by
  apply textKept_of_entries number?_kept
  · intro text other h
    unfold entries? at h
    rw [readZooms, readZooms, h]
  · intro text h
    unfold entries? at h
    rw [readZooms, h]
    exact ⟨_, rfl⟩

end StyledMap.Drawing
