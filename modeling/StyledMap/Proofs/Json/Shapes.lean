import StyledMap.Proofs.Json.Rewriting

/-! Shapes of trees: which trees write a string, a whole number, a list or a record down, however it is
spelled and whatever the order of its members is. A record is read from every tree of its shape. -/
namespace StyledMap.Json

namespace Tree

/-- A string, in any spelling of its characters. -/
def IsText (s : String) (t : Tree) : Prop := ∃ ps, t = .leaf (.string ps) ∧ Characters ps s.toList

/-- A whole number without sign, fraction and exponent. -/
def IsWhole (k : Nat) (t : Tree) : Prop :=
  ∃ n : Numeral, t = .leaf (.numeral n) ∧ n.negative = false ∧ n.fraction = [] ∧ n.exponent = none ∧
    numberOf n.whole = k

def IsFlag (b : Bool) (t : Tree) : Prop := t = .leaf (.bool b)

/-- An array with an item for each of the list, in order. -/
def ListOf {α : Type} (is : α → Tree → Prop) (as : List α) (t : Tree) : Prop :=
  ∃ ts, t = .array ts ∧ List.Forall₂ is as ts

/-- The members that are not left out. -/
def present (members : List (String × Option Tree)) : List (String × Tree) :=
  members.filterMap (fun m => m.2.map (Prod.mk m.1))

/-- An object of these members in any order, their names in any spelling. -/
def ObjectOf (members : List (String × Option Tree)) (t : Tree) : Prop :=
  ∃ ms named, t = .object ms ∧
    List.Forall₂ (fun m n => Characters m.1 n.1.toList ∧ m.2 = n.2) ms named ∧
    named.Perm (present members)

/-- An object that gives these members in this order, any name as often as it likes. -/
def Gives (depth : Nat) (given : List (String × Json)) (t : Tree) : Prop :=
  ∃ ms, t = .object ms ∧
    List.Forall₂ (fun m g => Characters m.1 g.1.toList ∧ m.2.Means depth g.2) ms given

/-- A member that is left out or null where there is nothing to write. -/
inductive Maybe {α : Type} (is : α → Tree → Prop) : Option α → Option Tree → Prop where
  | missing : Maybe is none none
  | null : Maybe is none (some (.leaf .null))
  | given {a : α} {t : Tree} (h : is a t) : Maybe is (some a) (some t)

/-- A member that may be left out where it has the value `usual`. -/
inductive Unless {α : Type} (usual : α) (is : α → Tree → Prop) : α → Option Tree → Prop where
  | missing : Unless usual is usual none
  | given {a : α} {t : Tree} (h : is a t) : Unless usual is a (some t)

theorem string?_eq_some {s : String} {t : Tree} : t.string? = some s ↔ t.IsText s := by
  constructor
  · intro h
    cases t with
    | array ts | object ms => cases h
    | leaf l => cases l with
      | null | bool | numeral => cases h
      | string ps => exact ⟨ps, rfl, text?_eq_some.1 h⟩
  · intro h
    obtain ⟨ps, rfl, hs⟩ := h
    exact text?_eq_some.2 hs

instance (s : String) (t : Tree) : Decidable (t.IsText s) := decidable_of_iff _ string?_eq_some

theorem IsText.value? {s : String} {t : Tree} (h : t.IsText s) (depth : Nat) :
    t.value? depth = some (.string s) := by
  obtain ⟨ps, rfl, hs⟩ := h
  rw [Tree.value?, Leaf.value?, text?_eq_some.2 hs]
  rfl

theorem isText_iff_means {depth : Nat} {s : String} {t : Tree} :
    t.IsText s ↔ t.Means depth (.string s) := by
  constructor
  · intro h
    exact value?_eq_some.1 (h.value? depth)
  · intro h
    cases h with
    | leaf h => cases h with
      | string h => exact ⟨_, rfl, by rwa [String.toList_ofList]⟩

theorem IsText.isNull {s : String} {t : Tree} (h : t.IsText s) : t.isNull = false := by
  obtain ⟨ps, rfl, -⟩ := h
  rfl

theorem eq_null_of_isNull {t : Tree} (h : t.isNull = true) : t = .leaf .null := by
  unfold isNull at h
  split at h
  · rfl
  · cases h

theorem IsWhole.value? {k : Nat} {t : Tree} (h : t.IsWhole k) (hk : k ≤ Text.maxUnsigned64)
    (depth : Nat) : t.value? depth = some (.number (.natural k)) := by
  obtain ⟨n, rfl, hs, hf, he, rfl⟩ := h
  rw [Tree.value?, Leaf.value?, Numeral.number?_natural.2 ⟨hs, hf, he, rfl, hk⟩]
  rfl

/-- An object stands for the members that it gives, merged. -/
theorem value?_eq_object {depth : Nat} {members : List (String × Json)} {t : Tree} :
    t.value? (depth + 1) = some (.object members) ↔
      ∃ given, t.Gives depth given ∧ members = merged given := by
  constructor
  · intro h
    cases t with
    | leaf l => cases Leaf.value?_eq_some.1 h
    | array ts =>
      obtain ⟨_, _, _, hv, -⟩ := value?_array.1 h
      cases hv
    | object ms =>
      obtain ⟨_, given, ⟨⟩, ⟨⟩, hgiven⟩ := value?_object.1 h
      refine ⟨given, ⟨ms, rfl, hgiven.imp fun m g hm => ?_⟩, rfl⟩
      exact ⟨text?_eq_some.1 hm.1, value?_eq_some.1 hm.2⟩
  · rintro ⟨given, ⟨ms, rfl, hgiven⟩, rfl⟩
    refine value?_object.2 ⟨depth, given, rfl, rfl, hgiven.imp fun m g hm => ?_⟩
    exact ⟨text?_eq_some.2 hm.1, value?_eq_some.2 hm.2⟩

theorem natural?_eq_some {k : Nat} {t : Tree} :
    t.natural? = some k ↔ t.IsWhole k ∧ k ≤ Text.maxUnsigned64 := by
  constructor
  · intro h
    cases t with
    | array ts | object ms => cases h
    | leaf l => cases l with
      | null | bool | string => cases h
      | numeral n =>
        rw [Tree.natural?] at h
        split at h
        · rename_i m hm
          obtain rfl := Option.some.inj h
          obtain ⟨hs, hf, he, hn, hle⟩ := Numeral.number?_natural.1 hm
          exact ⟨⟨n, rfl, hs, hf, he, hn.symm⟩, hle⟩
        · cases h
  · intro h
    obtain ⟨⟨n, rfl, hs, hf, he, rfl⟩, hk⟩ := h
    rw [Tree.natural?, Numeral.number?_natural.2 ⟨hs, hf, he, rfl, hk⟩]

theorem IsWhole.isNull {k : Nat} {t : Tree} (h : t.IsWhole k) : t.isNull = false := by
  obtain ⟨n, rfl, -⟩ := h
  rfl

end Tree

theorem allOf?_eq_some {α β : Type} {f : α → Option β} {done r : List β} {as : List α} :
    allOf? f done as = some r ↔
      ∃ bs, r = done.reverse ++ bs ∧ List.Forall₂ (fun a b => f a = some b) as bs := by
  induction as generalizing done with
  | nil => simp [allOf?, eq_comm]
  | cons a as ih =>
    rw [allOf?]
    cases ha : f a with
    | none => simp [List.forall₂_cons_left_iff, ha]
    | some b =>
      simp only [ih, List.forall₂_cons_left_iff, ha]
      constructor
      · rintro ⟨bs, rfl, h⟩
        exact ⟨b :: bs, by simp, b, bs, rfl, h, rfl⟩
      · rintro ⟨_, rfl, c, bs, hc, h, rfl⟩
        obtain rfl := Option.some.inj hc
        exact ⟨bs, by simp, h⟩

theorem exists_forall₂ {α β : Type} {R : α → β → Prop} {as : List α} (h : ∀ a ∈ as, ∃ b, R a b) :
    ∃ bs, List.Forall₂ R as bs := by
  induction as with
  | nil => exact ⟨[], .nil⟩
  | cons a as ih =>
    rw [List.forall_mem_cons] at h
    obtain ⟨b, hb⟩ := h.1
    obtain ⟨bs, hbs⟩ := ih h.2
    exact ⟨b :: bs, .cons hb hbs⟩

/-- A list of entries is read from an array, and made into what it writes down, one item at a time. -/
theorem Tree.ListOf.read {α β ε : Type} {is : α → Tree → Prop} {f : Tree → Option β}
    {make : β → Except ε α} {as : List α} {t : Tree} (h : t.ListOf is as)
    (hf : ∀ a ∈ as, ∀ t, is a t → ∃ b, f t = some b ∧ make b = .ok a) :
    ∃ bs, t.list? f = some bs ∧ bs.mapM make = .ok as := by
  obtain ⟨ts, rfl, h⟩ := h
  have each : ∃ bs, List.Forall₂ (fun t b => f t = some b) ts bs ∧ bs.mapM make = .ok as := by
    induction h with
    | nil => exact ⟨[], .nil, rfl⟩
    | @cons a t as ts ht _ ih =>
      rw [List.forall_mem_cons] at hf
      obtain ⟨b, hb, ha⟩ := hf.1 t ht
      obtain ⟨bs, hbs, has⟩ := ih hf.2
      refine ⟨b :: bs, .cons hb hbs, ?_⟩
      rw [List.mapM_cons, ha, has]
      rfl
  obtain ⟨bs, hbs, has⟩ := each
  exact ⟨bs, allOf?_eq_some.2 ⟨bs, rfl, hbs⟩, has⟩

/-- A reader that finds exactly what is written down does so in arrays of it. -/
theorem Tree.list?_eq_some {α : Type} {read : Tree → Option α} {is : α → Tree → Prop}
    (hread : ∀ a t, read t = some a ↔ is a t) {as : List α} {t : Tree} :
    t.list? read = some as ↔ t.ListOf is as := by
  constructor
  · intro h
    obtain ⟨ts, hts, h⟩ := Option.bind_eq_some_iff.1 h
    obtain ⟨_, rfl, h⟩ := allOf?_eq_some.1 h
    cases t with
    | leaf l | object ms => cases hts
    | array us =>
      obtain rfl := Option.some.inj hts
      exact ⟨us, rfl, (h.imp fun t a ha => (hread a t).1 ha).flip⟩
  · rintro ⟨ts, rfl, h⟩
    refine allOf?_eq_some.2 ⟨as, rfl, ?_⟩
    exact (h.imp fun a t ha => (hread a t).2 ha).flip

/-! Members by name. -/

theorem givenAs_perm {α : Type} {names : List String} {ms ns : List (String × α)} (h : ms.Perm ns)
    (once : (givenAs names ns).length ≤ 1) : givenAs names ms = givenAs names ns := by
  have hperm : (givenAs names ms).Perm (givenAs names ns) := (h.filter _).map _
  match hns : givenAs names ns with
  | [] => exact List.perm_nil.1 (hns ▸ hperm)
  | [a] => exact List.perm_singleton.1 (hns ▸ hperm)
  | a :: b :: rest =>
    rw [hns] at once
    simp at once

theorem forall_present {members : List (String × Option Tree)} {P : Tree → Prop} :
    (∀ m ∈ Tree.present members, P m.2) ↔ ∀ m ∈ members, ∀ t ∈ m.2, P t := by
  constructor
  · intro h m hm t ht
    exact h (m.1, t) (List.mem_filterMap.2 ⟨m, hm, by rw [Option.mem_def.1 ht]; rfl⟩)
  · intro h m hm
    obtain ⟨n, hn, hmn⟩ := List.mem_filterMap.1 hm
    obtain ⟨t, ht, rfl⟩ := Option.map_eq_some_iff.1 hmn
    exact h n hn t ht

theorem givenAs_present (names : List String) (members : List (String × Option Tree)) :
    givenAs names (Tree.present members) =
      (members.filter (fun m => names.contains m.1)).filterMap (·.2) := by
  induction members with
  | nil => rfl
  | cons m members ih =>
    obtain ⟨name, o⟩ := m
    unfold givenAs Tree.present at ih ⊢
    cases o with
    | none => by_cases hn : name ∈ names <;> simpa [hn] using ih
    | some t => by_cases hn : name ∈ names <;> simpa [hn] using ih

@[simp] theorem filterMap_member (name : String) (o : Option Tree) :
    [(name, o)].filterMap (·.2) = o.toList := by
  cases o <;> rfl

/-- The one member that goes by one of the names, or none. -/
def Sole (names : List String) (members : List (String × Option Tree)) (o : Option Tree) : Prop :=
  givenAs names (Tree.present members) = o.toList

@[simp] theorem sole_iff {names : List String} {members : List (String × Option Tree)}
    {o : Option Tree} : Sole names members o ↔
      (members.filter (fun m => names.contains m.1)).filterMap (·.2) = o.toList := by
  rw [Sole, givenAs_present]

theorem Sole.once {names : List String} {members : List (String × Option Tree)} {o : Option Tree}
    (h : Sole names members o) : (givenAs names (Tree.present members)).length ≤ 1 := by
  unfold Sole at h
  rw [h]
  cases o <;> simp

theorem Sole.given {names : List String} {members : List (String × Option Tree)} {o : Option Tree}
    (h : Sole names members o) {named : List (String × Tree)} (hp : named.Perm (Tree.present members)) :
    givenAs names named = o.toList :=
  (givenAs_perm hp h.once).trans h

theorem objectOf_iff {members : List (String × Option Tree)} {ms : List (List Piece × Tree)} :
    (Tree.object ms).ObjectOf members ↔
      ∃ named ∈ memberNames? [] ms, named.Perm (Tree.present members) := by
  constructor
  · intro h
    obtain ⟨_, named, ⟨⟩, hnames, hp⟩ := h
    refine ⟨named, memberNames?_eq_some.2 ⟨named, rfl, ?_⟩, hp⟩
    exact hnames.imp (fun m n h => ⟨text?_eq_some.2 h.1, h.2⟩)
  · intro h
    obtain ⟨named, hn, hp⟩ := h
    obtain ⟨_, rfl, hnames⟩ := memberNames?_eq_some.1 hn
    exact ⟨ms, _, rfl, hnames.imp (fun m n h => ⟨text?_eq_some.1 h.1, h.2⟩), hp⟩

instance (members : List (String × Option Tree)) : (t : Tree) → Decidable (t.ObjectOf members)
  | .object _ => decidable_of_iff' _ objectOf_iff
  | .leaf _ | .array _ => isFalse (fun h => by obtain ⟨_, _, ⟨⟩, -⟩ := h)

/-- A record is read from an object in which each field is given once at most, whatever the order. -/
theorem Tree.ObjectOf.record {members : List (String × Option Tree)} {t : Tree}
    (h : t.ObjectOf members) (fields : List (Field × Option Tree))
    (sole : ∀ f ∈ fields, Sole f.1.names members f.2) :
    ∃ r, Record.ofTree? (fields.map (·.1)) t = some r ∧ ∀ f ∈ fields, r.field? f.1 = f.2 := by
  obtain ⟨ms, _, rfl, -⟩ := id h
  obtain ⟨named, hnamed, hperm⟩ := objectOf_iff.1 h
  have honce : eachOnce (fields.map (·.1)) named = true := by
    simp only [eachOnce, List.all_eq_true, decide_eq_true_eq, List.forall_mem_map]
    intro f hf
    rw [(sole f hf).given hperm, ← sole f hf]
    exact (sole f hf).once
  refine ⟨.named named, ?_, fun f hf => ?_⟩
  · rw [Record.ofTree?, Option.mem_def.1 hnamed]
    simp only [honce, ↓reduceIte]
  · rw [Record.field?, (sole f hf).given hperm]
    cases f.2 <;> rfl

/-- An object has a value if its members have, and then a field has the value that is given for it. -/
theorem Tree.ObjectOf.value? {members : List (String × Option Tree)} {t : Tree} {depth : Nat}
    {P : Json → Prop} (h : t.ObjectOf members)
    (hv : ∀ m ∈ members, ∀ t ∈ m.2, ∃ v, t.value? depth = some v ∧ P v) :
    ∃ fields, t.value? (depth + 1) = some (.object fields) ∧ (∀ f ∈ fields, P f.2) ∧
      ∀ names o, Sole names members o →
        ∃ v, Option.Rel (fun t v => t.value? depth = some v) o v ∧ givenAs names fields = v.toList := by
  obtain ⟨ms, named, rfl, hnames, hperm⟩ := h
  have each : ∀ m ∈ named, ∃ g : String × Json,
      m.1 = g.1 ∧ m.2.value? depth = some g.2 ∧ P g.2 := by
    intro m hm
    obtain ⟨v, hv, hp⟩ := forall_present.2 hv m (hperm.mem_iff.1 hm)
    exact ⟨(m.1, v), rfl, hv, hp⟩
  obtain ⟨given, hgiven⟩ := exists_forall₂ each
  have values : List.Forall₂ (fun m g => m.1 = g.1 ∧ m.2.value? depth = some g.2) named given :=
    hgiven.imp (fun m g h => ⟨h.1, h.2.1⟩)
  refine ⟨merged given, Tree.value?_object.2 ⟨depth, given, rfl, rfl, ?_⟩, fun f hf => ?_,
    fun names o ho => ?_⟩
  · clear hperm hgiven each
    induction hnames generalizing given with
    | nil => cases values; exact .nil
    | cons hm _ ih =>
      cases values with
      | cons hg values =>
        exact .cons ⟨hg.1 ▸ text?_eq_some.2 hm.1, hm.2 ▸ hg.2⟩ (ih _ values)
  · obtain ⟨m, -, -, -, hp⟩ := exists_left_of_mem hgiven (mem_of_mem_merged hf)
    exact hp
  · have hfields := givenAs_forall₂ (R := fun t v => Tree.value? depth t = some v) values names
    rw [ho.given hperm] at hfields
    have honce : (givenAs names given).length ≤ 1 := by
      rw [← hfields.length_eq]
      cases o <;> simp
    rw [givenAs_merged honce]
    generalize givenAs names given = vs at hfields
    cases o with
    | none => cases hfields; exact ⟨none, .none, rfl⟩
    | some t =>
      obtain ⟨v, _, hv, ⟨⟩, rfl⟩ := List.forall₂_cons_left_iff.1 hfields
      exact ⟨some v, .some hv, rfl⟩

section Fields
variable {α : Type} {r : Record} {f : Field} {is : α → Tree → Prop} {read : Tree → Option α}

theorem Record.required?_of {t : Tree} {a : α} (h : r.field? f = some t) (ha : read t = some a) :
    r.required? f read = some a := by
  rw [required?, h, Option.bind_some, ha]

theorem Record.optional?_of {a : Option α} {o : Option Tree} (h : r.field? f = o)
    (ho : Tree.Maybe is a o)
    (hread : ∀ b t, a = some b → is b t → t.isNull = false ∧ read t = some b) :
    r.optional? f read = some a := by
  subst h
  unfold optional?
  generalize r.field? f = o at ho
  cases ho with
  | missing => rfl
  | null => rfl
  | given h =>
    obtain ⟨hnull, ha⟩ := hread _ _ rfl h
    simp only [hnull, ha, Bool.false_eq_true, ↓reduceIte, Option.map_some]

theorem Record.required?_eq_some (hread : ∀ a t, read t = some a ↔ is a t) {a : α} :
    r.required? f read = some a ↔ ∃ t, r.field? f = some t ∧ is a t := by
  simp only [required?, Option.bind_eq_some_iff, hread]

theorem Record.optional?_eq_some (hread : ∀ a t, read t = some a ↔ is a t)
    (hnull : ∀ a t, is a t → t.isNull = false) {o : Option α} :
    r.optional? f read = some o ↔ Tree.Maybe is o (r.field? f) := by
  refine ⟨fun h => ?_, fun h => optional?_of rfl h fun a t _ ha => ⟨hnull a t ha, (hread a t).2 ha⟩⟩
  unfold optional? at h
  split at h
  · obtain rfl := Option.some.inj h
    rename_i hf
    rw [hf]
    exact .missing
  · rename_i t hf
    rw [hf]
    split at h
    · rename_i ht
      obtain rfl := Option.some.inj h
      obtain rfl := Tree.eq_null_of_isNull ht
      exact .null
    · obtain ⟨a, ha, rfl⟩ := Option.map_eq_some_iff.1 h
      exact .given ((hread a t).1 ha)

/-- A list that may be left out when it is empty. -/
theorem Record.orElse?_of {β ε : Type} {read : Tree → Option (List β)} {make : β → Except ε α}
    {is : List α → Tree → Prop} {as : List α} {o : Option Tree} (h : r.field? f = o)
    (ho : Tree.Unless [] is as o)
    (hread : ∀ t, is as t → ∃ bs, read t = some bs ∧ bs.mapM make = .ok as) :
    ∃ bs, r.orElse? f [] read = some bs ∧ bs.mapM make = .ok as := by
  subst h
  unfold orElse?
  generalize r.field? f = o at ho
  cases ho with
  | missing => exact ⟨[], rfl, rfl⟩
  | given h => exact hread _ h

end Fields

/-! Every shape is written somehow: the tree of a value has the shape of the value. -/

theorem isText_tree (s : String) : (tree (.string s)).IsText s := ⟨_, rfl, characters_pieces s⟩

theorem gives_tree {depth : Nat} {given : List (String × Json)}
    (h : ∀ g ∈ given, g.2.Returns depth) : (tree (.object given)).Gives depth given := by
  refine ⟨_, by rw [tree, treeMembers_eq], ?_⟩
  rw [List.forall₂_map_left_iff, List.forall₂_same]
  exact fun g hg => ⟨characters_pieces g.1, Tree.value?_eq_some.1 (h g hg).value?⟩

theorem isWhole_tree {k : Nat} (hk : k ≤ Text.maxUnsigned64) :
    (tree (.number (.natural k))).IsWhole k := by
  have hv := (Number.returns_natural hk).parse?.2 0
  rw [tree]
  cases ht : (Number.natural k).tree with
  | array ts => rw [ht] at hv; cases hv
  | object ms => rw [ht] at hv; cases hv
  | leaf l =>
    rw [ht] at hv
    cases Leaf.value?_eq_some.1 hv with
    | natural hs hf he _ => exact ⟨_, rfl, hs, hf, he, rfl⟩

theorem listOf_tree {α : Type} {is : α → Tree → Prop} {as : List α} {write : α → Json}
    (h : ∀ a ∈ as, is a (write a).tree) : (tree (.array (as.map write))).ListOf is as := by
  rw [tree, treeItems_eq, List.map_map]
  exact ⟨_, rfl, List.forall₂_map_right_iff.2 (List.forall₂_same.2 h)⟩

theorem objectOf_tree (ms : List (String × Json)) :
    (tree (.object ms)).ObjectOf (ms.map (fun m => (m.1, some m.2.tree))) := by
  rw [tree, treeMembers_eq]
  refine ⟨_, ms.map (fun m => (m.1, m.2.tree)), rfl, ?_, ?_⟩
  · rw [List.forall₂_map_left_iff, List.forall₂_map_right_iff, List.forall₂_same]
    exact fun m _ => ⟨characters_pieces m.1, rfl⟩
  · simp [Tree.present, List.filterMap_map]

/-- A value that is missing is written as null. -/
def orNull {α : Type} (write : α → Json) : Option α → Json
  | none => .null
  | some a => write a

theorem maybe_tree {α : Type} {is : α → Tree → Prop} {write : α → Json} {o : Option α}
    (h : ∀ a, o = some a → is a (write a).tree) : Tree.Maybe is o (some (orNull write o).tree) := by
  cases o with
  | none => exact .null
  | some a => exact .given (h a rfl)

theorem Returns.orNull {α : Type} {write : α → Json} {o : Option α} {depth : Nat}
    (h : ∀ a, o = some a → (write a).Returns depth) : (orNull write o).Returns depth := by
  cases o with
  | none => exact .null
  | some a => exact h a rfl

end StyledMap.Json
