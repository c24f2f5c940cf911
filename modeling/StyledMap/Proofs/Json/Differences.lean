import StyledMap.Proofs.Json.Rewriting
import StyledMap.Proofs.Json.Shapes

/-! Objects that differ in the values under one name. Everything under other names is read alike, and
both are read or neither is. -/
namespace StyledMap.Json

theorem rel_bind {α α' β β' : Type} {R : α → α' → Prop} {S : β → β' → Prop} {o : Option α}
    {o' : Option α'} {f : α → Option β} {g : α' → Option β'} (h : Option.Rel R o o')
    (hf : ∀ a a', R a a' → Option.Rel S (f a) (g a')) : Option.Rel S (o.bind f) (o'.bind g) := by
  cases h with
  | none => exact .none
  | some h => exact hf _ _ h

theorem rel_bind_self {α β β' : Type} {S : β → β' → Prop} (o : Option α) {f : α → Option β}
    {g : α → Option β'} (hf : ∀ a, Option.Rel S (f a) (g a)) :
    Option.Rel S (o.bind f) (o.bind g) := by
  cases o with
  | none => exact .none
  | some a => exact hf a

theorem allOf?_rel {α α' β β' : Type} {S : β → β' → Prop} {f : α → Option β} {g : α' → Option β'}
    {as : List α} {as' : List α'} (h : List.Forall₂ (fun a a' => Option.Rel S (f a) (g a')) as as')
    {done : List β} {done' : List β'} (hd : List.Forall₂ S done done') :
    Option.Rel (List.Forall₂ S) (allOf? f done as) (allOf? g done' as') := by
  induction h generalizing done done' with
  | nil => exact .some (List.forall₂_reverse_iff.2 hd)
  | @cons a a' as as' ha _ ih =>
    rw [allOf?, allOf?]
    generalize f a = b, g a' = b' at ha ⊢
    cases ha with
    | none => exact .none
    | some hb => exact ih (.cons hb hd)

/-- The same member, or members of the name with values in relation. -/
def Apart {α : Type} (name : String) (R : α → α → Prop) (m n : String × α) : Prop :=
  m.1 = n.1 ∧ (m.2 = n.2 ∨ m.1 = name ∧ R m.2 n.2)

/-- The same for members whose names are spelled. -/
def SpelledApart (name : String) (R : Tree → Tree → Prop) (m n : List Piece × Tree) : Prop :=
  m.1 = n.1 ∧ (m.2 = n.2 ∨ Characters m.1 name.toList ∧ R m.2 n.2)

/-- The same tree, or objects with the same members apart from values under the name. -/
inductive Tree.Differ (name : String) (R : Tree → Tree → Prop) : Tree → Tree → Prop where
  | same (t : Tree) : Differ name R t t
  | object {ms ns : List (List Piece × Tree)}
      (h : List.Forall₂ (SpelledApart name R) ms ns) : Differ name R (.object ms) (.object ns)

theorem apart_refl {α : Type} {name : String} {R : α → α → Prop} (ms : List (String × α)) :
    List.Forall₂ (Apart name R) ms ms :=
  List.forall₂_same.2 (fun _ _ => ⟨rfl, .inl rfl⟩)

/-- Values that differ under the name have trees that do. -/
theorem differ_tree {name : String} {R : Tree → Tree → Prop} {ms ns : List (String × Json)}
    (h : List.Forall₂ (Apart name (fun v w => R v.tree w.tree)) ms ns) :
    Tree.Differ name R (Json.object ms).tree (Json.object ns).tree := by
  rw [tree, tree, treeMembers_eq, treeMembers_eq]
  refine .object (List.forall₂_map_left_iff.2 (List.forall₂_map_right_iff.2 (h.imp ?_)))
  rintro ⟨given, v⟩ ⟨other, w⟩ ⟨rfl, rfl | ⟨rfl, hr⟩⟩
  · exact ⟨rfl, .inl rfl⟩
  · exact ⟨rfl, .inr ⟨characters_pieces _, hr⟩⟩

section Members
variable {α : Type} {name : String} {R : α → α → Prop} {ms ns : List (String × α)}

theorem givenAs_apart (h : List.Forall₂ (Apart name R) ms ns) (names : List String) :
    List.Forall₂ (fun a b => a = b ∨ R a b) (givenAs names ms) (givenAs names ns) :=
  givenAs_forall₂ (h.imp (fun _ _ hm => ⟨hm.1, hm.2.imp_right (·.2)⟩)) names

theorem givenAs_eq_of_apart (h : List.Forall₂ (Apart name R) ms ns) {names : List String}
    (hn : name ∉ names) : givenAs names ms = givenAs names ns := by
  induction h with
  | nil => rfl
  | @cons m n ms ns hm _ ih =>
    unfold givenAs at ih ⊢
    rw [List.filter_cons, List.filter_cons, ← hm.1]
    by_cases hc : m.1 ∈ names
    · have hne : m.1 ≠ name := fun he => hn (he ▸ hc)
      obtain heq | ⟨he, -⟩ := hm.2
      · simpa [hc, heq] using ih
      · exact absurd he hne
    · simpa [hc] using ih

theorem apart_filter (h : List.Forall₂ (Apart name R) ms ns) (p : String → Bool) :
    List.Forall₂ (Apart name R) (ms.filter (fun m => p m.1)) (ns.filter (fun m => p m.1)) :=
  List.rel_filter (fun m n hm => by simp only [hm.1]) h

theorem apart_put (h : List.Forall₂ (Apart name R) ms ns) {m n : String × α} (hm : Apart name R m n) :
    List.Forall₂ (Apart name R) (put ms m.1 m.2) (put ns n.1 n.2) := by
  induction h with
  | nil => exact .cons hm .nil
  | @cons k l ms ns hk hrest ih =>
    obtain ⟨other, a⟩ := k
    obtain ⟨_, b⟩ := l
    obtain rfl : other = _ := hk.1
    rw [put, put, ← hm.1]
    by_cases he : other = m.1
    · subst he
      rw [if_pos rfl, if_pos rfl]
      exact .cons ⟨rfl, hm.2⟩ hrest
    · rw [if_neg he, if_neg he]
      exact .cons hk (hm.1 ▸ ih)

theorem apart_merged (h : List.Forall₂ (Apart name R) ms ns) :
    List.Forall₂ (Apart name R) (merged ms) (merged ns) := by
  have onto {done done' : List (String × α)} (hd : List.Forall₂ (Apart name R) done done') :
      List.Forall₂ (Apart name R) (ms.foldl (fun done m => put done m.1 m.2) done)
        (ns.foldl (fun done m => put done m.1 m.2) done') := by
    induction h generalizing done done' with
    | nil => exact hd
    | cons hm _ ih => exact ih (apart_put hd hm)
  exact onto .nil

end Members

section Objects
variable {name : String} {R : Tree → Tree → Prop} {ms ns : List (List Piece × Tree)}

theorem memberNames?_differ (h : List.Forall₂ (SpelledApart name R) ms ns)
    {done done' : List (String × Tree)} (hd : List.Forall₂ (Apart name R) done done') :
    Option.Rel (List.Forall₂ (Apart name R)) (memberNames? done ms) (memberNames? done' ns) := by
  induction h generalizing done done' with
  | nil => exact .some (List.forall₂_reverse_iff.2 hd)
  | @cons m n ms ns hm _ ih =>
    obtain ⟨ps, t⟩ := m
    obtain ⟨_, u⟩ := n
    obtain rfl : ps = _ := hm.1
    rw [memberNames?, memberNames?]
    cases hp : text? ps with
    | none => exact .none
    | some s =>
      refine ih (.cons ⟨rfl, hm.2.imp_right (fun hr => ⟨?_, hr.2⟩)⟩ hd)
      exact Option.some.inj (hp.symm.trans (text?_eq_some.2 hr.1))

theorem memberValues?_differ {S : Json → Json → Prop} {depth : Nat}
    (hv : ∀ t u, R t u → ∃ v w, t.value? depth = some v ∧ u.value? depth = some w ∧ S v w)
    (h : List.Forall₂ (SpelledApart name R) ms ns)
    {done done' : List (String × Json)} (hd : List.Forall₂ (Apart name S) done done') :
    Option.Rel (List.Forall₂ (Apart name S)) (Tree.memberValues? depth done ms)
      (Tree.memberValues? depth done' ns) := by
  induction h generalizing done done' with
  | nil => exact .some (List.forall₂_reverse_iff.2 hd)
  | @cons m n ms ns hm _ ih =>
    obtain ⟨ps, t⟩ := m
    obtain ⟨_, u⟩ := n
    obtain rfl : ps = _ := hm.1
    rw [Tree.memberValues?, Tree.memberValues?]
    cases hp : text? ps with
    | none => exact .none
    | some s =>
      obtain htu | ⟨hc, hr⟩ := hm.2
      · obtain rfl : t = u := htu
        cases ht : t.value? depth with
        | none => exact .none
        | some v => exact ih (.cons ⟨rfl, .inl rfl⟩ hd)
      · obtain ⟨v, w, ht, hu, hs⟩ := hv t u hr
        have hname : s = name := Option.some.inj (hp.symm.trans (text?_eq_some.2 hc))
        simp only [ht, hu]
        exact ih (.cons ⟨rfl, .inr ⟨hname, hs⟩⟩ hd)

/-- What an object stands for next to what the other one does. -/
theorem value?_differ {S : Json → Json → Prop} {depth : Nat}
    (hv : ∀ t u, R t u → ∃ v w, t.value? depth = some v ∧ u.value? depth = some w ∧ S v w)
    (h : List.Forall₂ (SpelledApart name R) ms ns) :
    Option.Rel (fun v w => ∃ fields others, v = .object fields ∧ w = .object others ∧
        List.Forall₂ (Apart name S) fields others)
      (Tree.value? (depth + 1) (.object ms)) (Tree.value? (depth + 1) (.object ns)) := by
  have hrel := memberValues?_differ hv h .nil
  rw [Tree.value?, Tree.value?]
  generalize Tree.memberValues? depth [] ms = vs, Tree.memberValues? depth [] ns = ws at hrel ⊢
  cases hrel with
  | none => exact .none
  | some hall => exact .some ⟨_, _, rfl, rfl, apart_merged hall⟩

end Objects

/-- Records that differ in one field alone, and there by related trees. -/
def Record.Differ (f : Field) (R : Tree → Tree → Prop) (r r' : Record) : Prop :=
  (∀ g : Field, g.position ≠ f.position → (∀ name ∈ f.names, name ∉ g.names) →
    r.field? g = r'.field? g) ∧
  Option.Rel (fun t u => t = u ∨ R t u) (r.field? f) (r'.field? f)

theorem Record.ofTree?_differ {fields : List Field} {f : Field} {name : String}
    {R : Tree → Tree → Prop} {t u : Tree} (hname : f.names = [name]) (h : Tree.Differ name R t u) :
    Option.Rel (Record.Differ f R) (Record.ofTree? fields t) (Record.ofTree? fields u) := by
  cases h with
  | same t =>
    cases Record.ofTree? fields t with
    | none => exact .none
    | some r =>
      refine .some ⟨fun _ _ _ => rfl, ?_⟩
      cases r.field? f with
      | none => exact .none
      | some t => exact .some (.inl rfl)
  | @object ms ns h =>
    have hrel := memberNames?_differ h .nil
    rw [Record.ofTree?, Record.ofTree?]
    generalize memberNames? [] ms = named, memberNames? [] ns = other at hrel ⊢
    cases hrel with
    | none => exact .none
    | @some named other hall =>
      have honce : eachOnce fields named = eachOnce fields other := by
        simp only [eachOnce, fun g : Field => (givenAs_apart hall g.names).length_eq]
      simp only [honce]
      cases eachOnce fields other with
      | false => exact .none
      | true =>
        refine .some ⟨fun g _ hg => ?_, rel_head? (givenAs_apart hall f.names)⟩
        have hnot : name ∉ g.names := hg name (hname ▸ List.mem_cons_self)
        rw [Record.field?, Record.field?, givenAs_eq_of_apart hall hnot]

theorem Record.listed_differ {f : Field} {R : Tree → Tree → Prop} {before after : List Tree}
    {t u : Tree} (hf : before.length = f.position) (h : R t u) :
    Record.Differ f R (.listed (before ++ t :: after)) (.listed (before ++ u :: after)) := by
  refine ⟨fun g hg _ => ?_, ?_⟩
  · have hne : g.position ≠ before.length := fun he => hg (he.trans hf)
    simp only [Record.field?, List.getElem?_append, List.getElem?_cons]
    split
    · rfl
    · rw [if_neg (by omega), if_neg (by omega)]
  · simpa [Record.field?, ← hf] using Or.inr h

/-- Trees of a record that differ in one field alone, wherever in an object it stands, or by its place
in an array. -/
inductive Tree.DifferAt (position : Nat) (name : String) (R : Tree → Tree → Prop) :
    Tree → Tree → Prop where
  | named {t u : Tree} (h : Tree.Differ name R t u) : DifferAt position name R t u
  | listed {before after : List Tree} {t u : Tree} (hb : before.length = position) (h : R t u) :
      DifferAt position name R (.array (before ++ t :: after)) (.array (before ++ u :: after))

/-- Arrays with items in relation. -/
def Tree.Items (R : Tree → Tree → Prop) (t u : Tree) : Prop :=
  ∃ ts us, t = .array ts ∧ u = .array us ∧ List.Forall₂ R ts us

theorem Record.ofTree?_differAt {fields : List Field} {position : Nat} {name : String}
    {R : Tree → Tree → Prop} {t u : Tree} (h : Tree.DifferAt position name R t u) :
    Option.Rel (Record.Differ ⟨position, [name]⟩ R) (Record.ofTree? fields t)
      (Record.ofTree? fields u) := by
  cases h with
  | named h => exact Record.ofTree?_differ rfl h
  | listed hb h =>
    simp only [Record.ofTree?, List.length_append, List.length_cons]
    split
    · exact .some (Record.listed_differ hb h)
    · exact .none

theorem bind_eq_of_rel {α α' β : Type} {R : α → α' → Prop} {o : Option α} {o' : Option α'}
    {f : α → Option β} {g : α' → Option β} (h : Option.Rel R o o') (hf : ∀ a a', R a a' → f a = g a') :
    o.bind f = o'.bind g := by
  cases h with
  | none => rfl
  | some h => exact hf _ _ h

section Read
variable {α : Type} {r r' : Record} {f : Field} {R : Tree → Tree → Prop} {read : Tree → Option α}

theorem Record.required?_same (h : r.field? f = r'.field? f) :
    r.required? f read = r'.required? f read := by
  rw [required?, required?, h]

theorem Record.optional?_same (h : r.field? f = r'.field? f) :
    r.optional? f read = r'.optional? f read := by
  rw [optional?, optional?, h]

/-- A difference that the reader of the field does not see. -/
theorem Record.orElse?_differ {missing : α} (h : Record.Differ f R r r')
    (hread : ∀ t u, R t u → read t = read u) :
    r.orElse? f missing read = r'.orElse? f missing read := by
  have hfield := h.2
  unfold orElse?
  generalize r.field? f = o, r'.field? f = o' at hfield ⊢
  cases hfield with
  | none => rfl
  | some h =>
    obtain rfl | h := h
    · rfl
    · exact hread _ _ h

theorem allOf?_congr {ts us : List Tree} {all : List α} (h : List.Forall₂ R ts us)
    (hread : ∀ t u, R t u → read t = read u) : allOf? read all ts = allOf? read all us := by
  induction h generalizing all with
  | nil => rfl
  | cons h _ ih =>
    rw [allOf?, allOf?, hread _ _ h]
    split
    · exact ih
    · rfl

theorem Tree.list?_items {t u : Tree} (h : Tree.Items R t u) (hread : ∀ t u, R t u → read t = read u) :
    t.list? read = u.list? read := by
  obtain ⟨ts, us, rfl, rfl, h⟩ := h
  exact allOf?_congr h hread

end Read

end StyledMap.Json
