import StyledMap.Json.Record
import StyledMap.Proofs.Json.Returns

/-! Records in a text and in the same text written anew. Writing merges the members of one name and
drops what stood between tokens; readers of records ask for no more than what is kept. -/
namespace StyledMap.Json

theorem filter_put {α : Type} (p : String → Bool) (ms : List (String × α)) (name : String) (a : α) :
    (put ms name a).filter (fun m => p m.1) =
      if p name then put (ms.filter (fun m => p m.1)) name a else ms.filter (fun m => p m.1) := by
  induction ms with
  | nil => by_cases hp : p name <;> simp [put, hp]
  | cons m ms ih =>
    obtain ⟨other, b⟩ := m
    by_cases he : other = name
    · subst he
      by_cases hp : p other <;> simp [put, hp]
    · by_cases hp : p name <;> by_cases ho : p other <;> simp [put, he, hp, ho, ih]

theorem merged_filter {α : Type} (p : String → Bool) (given : List (String × α)) :
    (merged given).filter (fun m => p m.1) = merged (given.filter (fun m => p m.1)) := by
  induction given using List.reverseRecOn with
  | nil => rfl
  | append_singleton given m ih =>
    obtain ⟨name, a⟩ := m
    rw [merged_concat, filter_put, ih, List.filter_append]
    by_cases hp : p name <;> simp [hp, merged_concat]

/-- Members that are given once are left alone. -/
theorem givenAs_merged {α : Type} {names : List String} {given : List (String × α)}
    (h : (givenAs names given).length ≤ 1) : givenAs names (merged given) = givenAs names given := by
  unfold givenAs at h ⊢
  rw [merged_filter names.contains]
  congr 1
  rw [List.length_map] at h
  generalize given.filter (fun m => names.contains m.1) = ms at h ⊢
  match ms, h with
  | [], _ => rfl
  | [_], _ => rfl

namespace Tree

theorem Means.mono {depth more : Nat} {t : Tree} {v : Json} (h : t.Means depth v)
    (hle : depth ≤ more) : t.Means more v := by
  induction h generalizing more with
  | leaf h => exact .leaf h
  | array hl _ ih =>
    obtain ⟨d, rfl⟩ : ∃ d, more = d + 1 := ⟨more - 1, by omega⟩
    exact .array hl (fun p hp => ih p hp (by omega))
  | object hl hn _ hm ih =>
    obtain ⟨d, rfl⟩ : ∃ d, more = d + 1 := ⟨more - 1, by omega⟩
    exact .object hl hn (fun p hp => ih p hp (by omega)) hm

/-- A tree stands for one value, whatever the depth is. -/
theorem value?_unique {depth other : Nat} {t : Tree} {v w : Json} (hv : t.value? depth = some v)
    (hw : t.value? other = some w) : v = w := by
  have hv' := value?_eq_some.2 ((value?_eq_some.1 hv).mono (Nat.le_max_left depth other))
  have hw' := value?_eq_some.2 ((value?_eq_some.1 hw).mono (Nat.le_max_right depth other))
  exact Option.some.inj (hv'.symm.trans hw')

/-- The tree of what is written of a tree's value. -/
def Rewritten (t u : Tree) : Prop :=
  ∃ depth v, t.value? depth = some v ∧ (∀ x ∈ v.floats, (Number.float x).Returns) ∧ u = v.tree

/-- What `read` finds in a tree it finds in the tree written anew. -/
def Kept {α : Type} (read : Tree → Option α) : Prop :=
  ∀ ⦃t u : Tree⦄ ⦃a : α⦄, t.Rewritten u → read t = some a → read u = some a

theorem value?_kept (depth : Nat) : Kept (value? depth) := by
  rintro t _ w ⟨other, v, hv, hf, rfl⟩ hw
  obtain rfl := value?_unique hv hw
  exact (returns_of_value? hw hf).value?

theorem Rewritten.array {ts : List Tree} {u : Tree} (h : (Tree.array ts).Rewritten u) :
    ∃ us, u = .array us ∧ List.Forall₂ Rewritten ts us := by
  obtain ⟨depth, v, hv, hf, rfl⟩ := h
  obtain ⟨d, vs, rfl, rfl, hall⟩ := value?_array.1 hv
  refine ⟨vs.map tree, by rw [tree, treeItems_eq], List.forall₂_map_right_iff.2 ?_⟩
  refine List.forall₂_iff_zip.2 ⟨hall.length_eq, fun {t v} hp => ?_⟩
  exact ⟨d, v, List.forall₂_zip hall hp, fun x hx =>
    hf x (mem_floatsOfItems.2 ⟨v, (List.of_mem_zip hp).2, hx⟩), rfl⟩

theorem Rewritten.string {ps : List Piece} {u : Tree} (h : (Tree.leaf (.string ps)).Rewritten u) :
    ∃ s, text? ps = some s ∧ u = .leaf (.string (pieces s)) := by
  obtain ⟨depth, v, hv, -, rfl⟩ := h
  obtain ⟨s, hs, rfl⟩ := Option.map_eq_some_iff.1 hv
  exact ⟨s, hs, rfl⟩

theorem Rewritten.numeral {n : Numeral} {u : Tree} (h : (Tree.leaf (.numeral n)).Rewritten u) :
    ∃ n', u = .leaf (.numeral n') ∧ n'.number? = n.number? := by
  obtain ⟨depth, v, hv, hf, rfl⟩ := h
  obtain ⟨m, hm, rfl⟩ := Option.map_eq_some_iff.1 hv
  have hw := (returns_of_value? hv hf).value?
  rw [tree] at hw ⊢
  cases ht : m.tree with
  | array ts =>
    rw [ht] at hw
    obtain ⟨_, _, _, ⟨⟩, -⟩ := value?_array.1 hw
  | object ms =>
    rw [ht] at hw
    obtain ⟨_, _, _, ⟨⟩, -⟩ := value?_object.1 hw
  | leaf l =>
    rw [ht, value?] at hw
    cases l with
    | null | bool => cases hw
    | string ps =>
      obtain ⟨s, -, ⟨⟩⟩ := Option.map_eq_some_iff.1 hw
    | numeral n' =>
      obtain ⟨m', hm', ⟨⟩⟩ := Option.map_eq_some_iff.1 hw
      exact ⟨n', rfl, hm'.trans hm.symm⟩

theorem Rewritten.isNull {t u : Tree} (h : t.Rewritten u) : u.isNull = t.isNull := by
  cases t with
  | leaf l => cases l with
    | null => obtain ⟨depth, v, hv, -, rfl⟩ := h; cases hv; rfl
    | bool b => obtain ⟨depth, v, hv, -, rfl⟩ := h; cases hv; rfl
    | string ps => obtain ⟨s, -, rfl⟩ := h.string; rfl
    | numeral n => obtain ⟨n', rfl, -⟩ := h.numeral; rfl
  | array ts => obtain ⟨us, rfl, -⟩ := h.array; rfl
  | object ms =>
    obtain ⟨depth, v, hv, -, rfl⟩ := h
    obtain ⟨_, given, -, rfl, -⟩ := value?_object.1 hv
    rfl

theorem string?_kept : Kept string? := by
  intro t u s h hs
  cases t with
  | array ts | object ms => cases hs
  | leaf l => cases l with
    | null | bool | numeral => cases hs
    | string ps =>
      obtain ⟨s', hs', rfl⟩ := h.string
      obtain rfl := Option.some.inj (hs'.symm.trans hs)
      exact text?_pieces s'

theorem natural?_kept : Kept natural? := by
  intro t u k h hk
  cases t with
  | array ts | object ms => cases hk
  | leaf l => cases l with
    | null | bool | string => cases hk
    | numeral n =>
      obtain ⟨n', rfl, hn⟩ := h.numeral
      rw [natural?] at hk ⊢
      rwa [hn]

theorem allOf?_kept {α : Type} {read : Tree → Option α} (hk : Kept read) {ts us : List Tree}
    (h : List.Forall₂ Rewritten ts us) {done as : List α} (ha : allOf? read done ts = some as) :
    allOf? read done us = some as := by
  induction h generalizing done with
  | nil => exact ha
  | @cons t u ts us ht _ ih =>
    rw [allOf?] at ha ⊢
    cases hr : read t with
    | none => simp [hr] at ha
    | some a =>
      rw [hr] at ha
      rw [hk ht hr]
      exact ih ha

theorem list?_kept {α : Type} {read : Tree → Option α} (hk : Kept read) : Kept (list? read) := by
  intro t u as h ha
  cases t with
  | leaf l | object ms => cases ha
  | array ts =>
    obtain ⟨us, rfl, hall⟩ := h.array
    exact allOf?_kept hk hall ha

end Tree

/-! Fields of records. -/

/-- Every field is the same, written anew, or missing from both. -/
def Record.Rewritten (fields : List Field) (r r' : Record) : Prop :=
  ∀ f ∈ fields, Option.Rel Tree.Rewritten (r.field? f) (r'.field? f)

theorem memberNames?_eq_some {done named : List (String × Tree)} {ms : List (List Piece × Tree)} :
    memberNames? done ms = some named ↔
      ∃ ns, named = done.reverse ++ ns ∧
        List.Forall₂ (fun m n => text? m.1 = some n.1 ∧ m.2 = n.2) ms ns := by
  induction ms generalizing done with
  | nil => simp [memberNames?, eq_comm]
  | cons m ms ih =>
    obtain ⟨s, t⟩ := m
    rw [memberNames?]
    cases hs : text? s with
    | none => simp [List.forall₂_cons_left_iff, hs]
    | some name =>
      simp only [ih, List.forall₂_cons_left_iff, hs]
      constructor
      · rintro ⟨ns, rfl, h⟩
        exact ⟨(name, t) :: ns, by simp, (name, t), ns, ⟨rfl, rfl⟩, h, rfl⟩
      · rintro ⟨_, rfl, ⟨n, u⟩, ns, ⟨hn, hu⟩, h, rfl⟩
        obtain rfl := Option.some.inj hn
        obtain rfl : t = u := hu
        exact ⟨ns, by simp, h⟩

/-- Where members can be read, their names can. -/
theorem memberNames?_of_forall₂ {α : Type} {R : Tree → α → Prop} {ms : List (List Piece × Tree)}
    {given : List (String × α)}
    (h : List.Forall₂ (fun m g => text? m.1 = some g.1 ∧ R m.2 g.2) ms given) :
    ∃ named, memberNames? [] ms = some named ∧
      List.Forall₂ (fun n g => n.1 = g.1 ∧ R n.2 g.2) named given := by
  have each : ∃ named : List (String × Tree), List.Forall₂ (fun m n => text? m.1 = some n.1 ∧ m.2 = n.2) ms named ∧
      List.Forall₂ (fun n g => n.1 = g.1 ∧ R n.2 g.2) named given := by
    induction h with
    | nil => exact ⟨[], .nil, .nil⟩
    | @cons m g ms given hm _ ih =>
      obtain ⟨named, hnames, hvalues⟩ := ih
      exact ⟨(g.1, m.2) :: named, .cons ⟨hm.1, rfl⟩ hnames, .cons ⟨rfl, hm.2⟩ hvalues⟩
  obtain ⟨named, hnames, hvalues⟩ := each
  exact ⟨named, memberNames?_eq_some.2 ⟨named, rfl, hnames⟩, hvalues⟩

/-- Lists of members with the same names have the same fields. -/
theorem givenAs_forall₂ {α β : Type} {R : α → β → Prop} {ms : List (String × α)}
    {ns : List (String × β)} (h : List.Forall₂ (fun m n => m.1 = n.1 ∧ R m.2 n.2) ms ns)
    (names : List String) : List.Forall₂ R (givenAs names ms) (givenAs names ns) := by
  induction h with
  | nil => exact .nil
  | @cons m n ms ns hm _ ih =>
    unfold givenAs at ih ⊢
    rw [List.filter_cons, List.filter_cons, hm.1]
    split
    · exact .cons hm.2 ih
    · exact ih

theorem mem_of_mem_givenAs {α : Type} {names : List String} {ms : List (String × α)} {a : α}
    (h : a ∈ givenAs names ms) : ∃ m ∈ ms, m.2 = a := by
  obtain ⟨m, hm, rfl⟩ := List.mem_map.1 h
  exact ⟨m, (List.mem_filter.1 hm).1, rfl⟩

/-- The members of an object written anew, with their names read. A field that was given once is
given once again. -/
theorem Tree.Rewritten.object {ms : List (List Piece × Tree)} {named : List (String × Tree)} {u : Tree}
    (h : (Tree.object ms).Rewritten u) (hn : memberNames? [] ms = some named) :
    ∃ ms' named', u = .object ms' ∧ memberNames? [] ms' = some named' ∧
      ∀ names, (givenAs names named).length ≤ 1 →
        List.Forall₂ Tree.Rewritten (givenAs names named) (givenAs names named') := by
  obtain ⟨depth, v, hv, hf, rfl⟩ := h
  obtain ⟨d, given, rfl, rfl, hall⟩ := Tree.value?_object.1 hv
  obtain ⟨ns, rfl, hns⟩ := memberNames?_eq_some.1 hn
  have values :
      List.Forall₂ (fun n g => n.1 = g.1 ∧ Tree.value? d n.2 = some g.2) named given := by
    clear hn hv hf
    induction hall generalizing named with
    | nil => cases hns; exact .nil
    | cons hg _ ih =>
      cases hns with
      | cons hm hns =>
        exact .cons ⟨Option.some.inj (hm.1.symm.trans hg.1), hm.2 ▸ hg.2⟩ (ih hns)
  let named' : List (String × Tree) := (merged given).map (fun g => (g.1, g.2.tree))
  refine ⟨_, named', by rw [tree, treeMembers_eq], ?_, fun names hle => ?_⟩
  · refine memberNames?_eq_some.2 ⟨named', rfl, ?_⟩
    rw [List.forall₂_map_left_iff, List.forall₂_map_right_iff, List.forall₂_same]
    exact fun g _ => ⟨text?_pieces g.1, rfl⟩
  · have hfields := givenAs_forall₂ (R := fun t v => Tree.value? d t = some v) values names
    have honce : givenAs names (merged given) = givenAs names given :=
      givenAs_merged (hfields.length_eq ▸ hle)
    have htree : givenAs names named' = (givenAs names given).map tree := by
      rw [← honce]
      simp [givenAs, named', List.filter_map, Function.comp_def]
    rw [htree, List.forall₂_map_right_iff]
    refine List.forall₂_iff_zip.2 ⟨hfields.length_eq, fun {t v} hp => ?_⟩
    obtain ⟨g, hg, rfl⟩ := mem_of_mem_givenAs (honce ▸ (List.of_mem_zip hp).2)
    exact ⟨d, g.2, List.forall₂_zip hfields hp, fun x hx =>
      hf x (mem_floatsOfMembers.2 ⟨g, hg, hx⟩), rfl⟩

theorem rel_head? {α β : Type} {R : α → β → Prop} {as : List α} {bs : List β}
    (h : List.Forall₂ R as bs) : Option.Rel R as.head? bs.head? := by
  cases h with
  | nil => exact .none
  | cons ha _ => exact .some ha

theorem rel_getElem? {α β : Type} {R : α → β → Prop} {as : List α} {bs : List β}
    (h : List.Forall₂ R as bs) (i : Nat) : Option.Rel R as[i]? bs[i]? := by
  induction h generalizing i with
  | nil => exact .none
  | cons ha _ ih =>
    cases i with
    | zero => exact .some ha
    | succ i => exact ih i

theorem Record.ofTree?_rewritten {fields : List Field} {t u : Tree} {r : Record} (h : t.Rewritten u)
    (hr : Record.ofTree? fields t = some r) :
    ∃ r', Record.ofTree? fields u = some r' ∧ r.Rewritten fields r' := by
  cases t with
  | leaf l => cases hr
  | array ts =>
    obtain ⟨us, rfl, hall⟩ := h.array
    rw [ofTree?] at hr
    split at hr
    · rename_i hle
      obtain rfl := Option.some.inj hr
      refine ⟨.listed us, ?_, fun f _ => rel_getElem? hall f.position⟩
      rw [ofTree?, if_pos (hall.length_eq ▸ hle)]
    · cases hr
  | object ms =>
    rw [ofTree?] at hr
    split at hr
    · rename_i named hn
      split at hr
      · rename_i honce
        obtain rfl := Option.some.inj hr
        obtain ⟨ms', named', rfl, hn', hfields⟩ := h.object hn
        have once : ∀ f ∈ fields, (givenAs f.names named).length ≤ 1 := by
          simpa [eachOnce] using honce
        refine ⟨.named named', ?_, fun f hf => rel_head? (hfields f.names (once f hf))⟩
        have once' : eachOnce fields named' = true := by
          simp only [eachOnce, List.all_eq_true, decide_eq_true_eq]
          exact fun f hf => (hfields f.names (once f hf)).length_eq ▸ once f hf
        rw [ofTree?, hn']
        simp only [once', ↓reduceIte]
      · cases hr
    · cases hr

theorem exists_of_rel_some {α β : Type} {R : α → β → Prop} {a : α} {o : Option β}
    (h : Option.Rel R (some a) o) : ∃ b, o = some b ∧ R a b := by
  cases h with
  | some h => exact ⟨_, rfl, h⟩

theorem eq_none_of_rel {α β : Type} {R : α → β → Prop} {o : Option β}
    (h : Option.Rel R none o) : o = none := by
  cases h with
  | none => rfl

section Fields
variable {α : Type} {fields : List Field} {f : Field} {r r' : Record} {read : Tree → Option α}

theorem Record.required?_kept (h : r.Rewritten fields r') (hf : f ∈ fields) (hk : Tree.Kept read)
    {a : α} (ha : r.required? f read = some a) : r'.required? f read = some a := by
  obtain ⟨t, ht, ha⟩ := Option.bind_eq_some_iff.1 ha
  obtain ⟨u, hu, hrel⟩ := exists_of_rel_some (ht ▸ h f hf)
  exact Option.bind_eq_some_iff.2 ⟨u, hu, hk hrel ha⟩

theorem Record.orElse?_kept (h : r.Rewritten fields r') (hf : f ∈ fields) (hk : Tree.Kept read)
    {missing a : α} (ha : r.orElse? f missing read = some a) :
    r'.orElse? f missing read = some a := by
  unfold orElse? at ha ⊢
  cases ht : r.field? f with
  | none =>
    rw [ht] at ha
    have hu : r'.field? f = none := eq_none_of_rel (ht ▸ h f hf)
    rw [hu]
    exact ha
  | some t =>
    rw [ht] at ha
    obtain ⟨u, hu, hrel⟩ := exists_of_rel_some (ht ▸ h f hf)
    rw [hu]
    exact hk hrel ha

theorem Record.optional?_kept (h : r.Rewritten fields r') (hf : f ∈ fields) (hk : Tree.Kept read)
    {o : Option α} (ho : r.optional? f read = some o) : r'.optional? f read = some o := by
  unfold optional? at ho ⊢
  cases ht : r.field? f with
  | none =>
    rw [ht] at ho
    have hu : r'.field? f = none := eq_none_of_rel (ht ▸ h f hf)
    rw [hu]
    exact ho
  | some t =>
    rw [ht] at ho
    obtain ⟨u, hu, hrel⟩ := exists_of_rel_some (ht ▸ h f hf)
    rw [hu]
    dsimp only at ho ⊢
    rw [hrel.isNull]
    split at ho
    · rename_i hnull
      rwa [if_pos hnull]
    · rename_i hnull
      rw [if_neg hnull]
      obtain ⟨a, ha, rfl⟩ := Option.map_eq_some_iff.1 ho
      rw [hk hrel ha]
      rfl

end Fields

end StyledMap.Json
