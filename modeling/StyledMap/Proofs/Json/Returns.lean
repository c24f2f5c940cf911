import StyledMap.Proofs.Decimal.Plain
import StyledMap.Proofs.Json.Trees
import StyledMap.Proofs.Json.Writing

/-! What is written of a value is read as the value again, in either form. Of doubles this is asked
one by one; everything else that was read comes back. -/
namespace StyledMap.Json
open Text (digit?)

namespace Number

/-- The number that a text holds. -/
def read? (s : String) : Option Number :=
  match parse? s with
  | some (.number n) => some n
  | _ => none

/-- Reading a number's text gives the number back. -/
def Returns (n : Number) : Prop := read? n.text = some n

/-- What a number is written as. -/
def tree (n : Number) : Tree := (Tree.parse? n.text).getD (.leaf .null)

theorem Returns.parse? {n : Number} (h : n.Returns) :
    n.tree.Spells n.text.toList ∧ ∀ depth, n.tree.value? depth = some (.number n) := by
  unfold Returns read? Json.parse? at h
  unfold tree
  cases ht : Tree.parse? n.text with
  | none => simp [ht] at h
  | some t =>
    refine ⟨Tree.parse?_eq_some.1 ht, fun depth => ?_⟩
    rw [ht, Option.bind_some] at h
    cases t with
    | leaf l =>
      rw [Tree.value?] at h
      rw [Option.getD_some, Tree.value?]
      cases hl : l.value? with
      | none => simp [hl] at h
      | some v =>
        cases v <;> simp [hl] at h
        rw [h]
    | array ts =>
      exfalso
      cases hv : Tree.value? depthLimit (.array ts) with
      | none => simp [hv] at h
      | some v =>
        obtain ⟨d, vs, -, rfl, -⟩ := Tree.value?_array.1 hv
        simp [hv] at h
    | object ms =>
      exfalso
      cases hv : Tree.value? depthLimit (.object ms) with
      | none => simp [hv] at h
      | some v =>
        obtain ⟨d, vs, -, rfl, -⟩ := Tree.value?_object.1 hv
        simp [hv] at h

theorem numberOf_concat (ds : List Nat) (d : Nat) : numberOf (ds ++ [d]) = 10 * numberOf ds + d := by
  simp [numberOf]

/-- The digits that a number is written with, in front of others. -/
theorem digits_ofNatOnto (n : Nat) (tail : List Char) : ∀ es, Digits es tail →
    ∃ ds, Digits (ds ++ es) (Text.ofNatOnto n tail) ∧ numberOf ds = n ∧ ds ≠ [] ∧
      (ds.head? = some 0 → ds = [0]) := by
  induction n, tail using Text.ofNatOnto.induct with
  | case1 n tail h =>
    intro es hes
    refine ⟨[n], ?_, by simp [numberOf], by simp, by simp⟩
    rw [Text.ofNatOnto, if_pos h]
    unfold Digits at hes ⊢
    rw [List.map_cons, Text.digit?_digitChar h, hes]
    rfl
  | case2 n tail h ih =>
    intro es hes
    have hd : digit? (Text.digitChar (n % 10)) = some (n % 10) :=
      Text.digit?_digitChar (Nat.mod_lt _ (by decide))
    obtain ⟨ds, hds, hn, hne, hz⟩ := ih (n % 10 :: es) (by
      unfold Digits at hes ⊢
      rw [List.map_cons, hd, hes]
      rfl)
    refine ⟨ds ++ [n % 10], ?_, ?_, by simp, ?_⟩
    · rw [Text.ofNatOnto, if_neg h, List.append_assoc]
      exact hds
    · rw [numberOf_concat, hn]
      omega
    · intro hhead
      rw [List.head?_append_of_ne_nil _ hne] at hhead
      rw [hz hhead] at hn
      have h10 : 0 = n / 10 := hn
      omega

/-- The numeral of a whole number. -/
theorem exists_unsigned (negative : Bool) (k : Nat) :
    ∃ n : Numeral, n.Unsigned (Text.ofNat k) ∧ n.negative = negative ∧ n.fraction = [] ∧
      n.exponent = none ∧ numberOf n.whole = k := by
  obtain ⟨ds, hds, hk, hne, hz⟩ := digits_ofNatOnto k [] [] rfl
  rw [List.append_nil] at hds
  refine ⟨⟨negative, ds, [], none⟩, ?_, rfl, rfl, rfl, hk⟩
  have h := Numeral.Unsigned.mk (n := ⟨negative, ds, [], none⟩) hne (fun h => by rw [hz h]; rfl) hds
    .absent .absent
  rwa [List.append_nil, List.append_nil] at h

/-- A text that spells a numeral is read as the number of the numeral. -/
theorem read?_of_spelled {s : String} {n : Numeral} {m : Number} (h : n.Spelled s.toList)
    (hm : n.number? = some m) : read? s = some m := by
  have ht : Tree.parse? s = some (.leaf (.numeral n)) := by
    rw [Tree.parse?_eq_some, ← List.append_nil s.toList]
    exact (Token.Spelled.numeral h).spelling (.spaces spaces_nil)
  unfold read? Json.parse?
  rw [ht, Option.bind_some, Tree.value?, Leaf.value?, hm]
  rfl

theorem returns_natural {k : Nat} (h : k ≤ Text.maxUnsigned64) : (natural k).Returns := by
  obtain ⟨n, hn, hs, hf, he, hk⟩ := exists_unsigned false k
  refine read?_of_spelled (n := n) ?_ (Numeral.number?_natural.2 ⟨hs, hf, he, hk.symm, h⟩)
  rw [text, Text.nat, String.toList_ofList]
  exact .positive hs hn

theorem returns_below {k : Nat} (h : 0 < k ∧ k ≤ 2 ^ 63) : (below k).Returns := by
  obtain ⟨n, hn, hs, hf, he, hk⟩ := exists_unsigned true k
  refine read?_of_spelled (n := n) ?_ (Numeral.number?_below.2 ⟨hs, hf, he, hk.symm, h⟩)
  have ht : (text (below k)).toList = '-' :: Text.ofNat k := by
    simp [text, Text.nat]
  rw [ht]
  exact .negative hs hn

end Number

mutual

/-- What a value is written as. -/
def tree : Json → Tree
  | .null => .leaf .null
  | .bool b => .leaf (.bool b)
  | .number n => n.tree
  | .string s => .leaf (.string (pieces s))
  | .array vs => .array (treeItems vs)
  | .object ms => .object (treeMembers ms)

def treeItems : List Json → List Tree
  | [] => []
  | v :: vs => v.tree :: treeItems vs

def treeMembers : List (String × Json) → List (List Piece × Tree)
  | [] => []
  | (name, v) :: ms => (pieces name, v.tree) :: treeMembers ms

end

@[simp] theorem treeItems_eq (vs : List Json) : treeItems vs = vs.map tree := by
  induction vs with
  | nil => rfl
  | cons v vs ih => rw [treeItems, ih, List.map_cons]

@[simp] theorem treeMembers_eq (ms : List (String × Json)) :
    treeMembers ms = ms.map (fun m => (pieces m.1, m.2.tree)) := by
  induction ms with
  | nil => rfl
  | cons m ms ih =>
    obtain ⟨name, v⟩ := m
    rw [treeMembers, ih, List.map_cons]

mutual

/-- The doubles in a value. -/
def floats : Json → List Float
  | .number (.float x) => [x]
  | .array vs => floatsOfItems vs
  | .object ms => floatsOfMembers ms
  | .null | .bool _ | .string _ | .number (.natural _) | .number (.below _) => []

def floatsOfItems : List Json → List Float
  | [] => []
  | v :: vs => v.floats ++ floatsOfItems vs

def floatsOfMembers : List (String × Json) → List Float
  | [] => []
  | (_, v) :: ms => v.floats ++ floatsOfMembers ms

end

theorem mem_floatsOfItems {vs : List Json} {x : Float} :
    x ∈ floatsOfItems vs ↔ ∃ v ∈ vs, x ∈ v.floats := by
  induction vs with
  | nil => simp [floatsOfItems]
  | cons v vs ih => simp [floatsOfItems, ih]

theorem mem_floatsOfMembers {ms : List (String × Json)} {x : Float} :
    x ∈ floatsOfMembers ms ↔ ∃ m ∈ ms, x ∈ m.2.floats := by
  induction ms with
  | nil => simp [floatsOfMembers]
  | cons m ms ih =>
    obtain ⟨name, v⟩ := m
    simp [floatsOfMembers, ih]

/-- What is written of such a value is read as the value again: its numbers come back, no name stands
twice in an object, and at most `depth` containers are open inside each other. -/
inductive Returns : Nat → Json → Prop where
  | null {depth : Nat} : Returns depth .null
  | bool {depth : Nat} (b : Bool) : Returns depth (.bool b)
  | string {depth : Nat} (s : String) : Returns depth (.string s)
  | number {depth : Nat} {n : Number} (h : n.Returns) : Returns depth (.number n)
  | array {depth : Nat} {vs : List Json} (h : ∀ v ∈ vs, Returns depth v) :
      Returns (depth + 1) (.array vs)
  | object {depth : Nat} {ms : List (String × Json)} (hd : (ms.map (·.1)).Nodup)
      (h : ∀ m ∈ ms, Returns depth m.2) : Returns (depth + 1) (.object ms)

theorem Number.returns_of_value? {l : Leaf} {n : Number} (h : l.value? = some (.number n))
    (hf : ∀ x, n = .float x → n.Returns) : n.Returns := by
  cases l with
  | null | bool => simp [Leaf.value?] at h
  | string ps =>
    obtain ⟨s, -, hs⟩ := Option.map_eq_some_iff.1 h
    cases hs
  | numeral m =>
    obtain ⟨_, hm, ⟨⟩⟩ := Option.map_eq_some_iff.1 h
    cases n with
    | natural k => exact returns_natural (Numeral.number?_natural.1 hm).2.2.2.2
    | below k => exact returns_below (Numeral.number?_below.1 hm).2.2.2.2
    | float x => exact hf x rfl


/-- What is read can be written and read again, apart from doubles, which must come back themselves. -/
theorem returns_of_value? {depth : Nat} {t : Tree} {v : Json} (h : t.value? depth = some v)
    (hf : ∀ x ∈ v.floats, (Number.float x).Returns) : v.Returns depth := by
  have leaf {depth : Nat} {l : Leaf} {v : Json} (h : l.value? = some v)
      (hf : ∀ x ∈ v.floats, (Number.float x).Returns) : v.Returns depth := by
    cases v with
    | null => exact .null
    | bool b => exact .bool b
    | string s => exact .string s
    | number n => exact .number (Number.returns_of_value? h (by rintro x rfl; exact hf x (by simp [floats])))
    | array vs => cases Leaf.value?_eq_some.1 h
    | object ms => cases Leaf.value?_eq_some.1 h
  induction depth generalizing t v with
  | zero =>
    cases t with
    | leaf l => exact leaf h hf
    | array ts => cases h
    | object ms => cases h
  | succ d ih =>
    cases t with
    | leaf l => exact leaf h hf
    | array ts =>
      obtain ⟨_, vs, ⟨⟩, rfl, hall⟩ := Tree.value?_array.1 h
      refine .array (fun v hv => ?_)
      obtain ⟨t, -, ht⟩ := exists_left_of_mem hall hv
      exact ih ht (fun x hx => hf x (mem_floatsOfItems.2 ⟨v, hv, hx⟩))
    | object ms =>
      obtain ⟨_, given, ⟨⟩, rfl, hall⟩ := Tree.value?_object.1 h
      refine .object (nodup_merged given) (fun m hm => ?_)
      obtain ⟨t, -, ht⟩ := exists_left_of_mem hall (mem_of_mem_merged hm)
      exact ih ht.2 (fun x hx => hf x (mem_floatsOfMembers.2 ⟨m, hm, hx⟩))

/-- What is written stands for the value. -/
theorem Returns.value? {depth : Nat} {v : Json} (h : v.Returns depth) :
    v.tree.value? depth = some v := by
  induction h with
  | null | bool => rw [tree, Tree.value?]; rfl
  | string s => rw [tree, Tree.value?, Leaf.value?, text?_pieces]; rfl
  | number h => exact h.parse?.2 _
  | array _ ih =>
    refine Tree.value?_array.2 ⟨_, _, rfl, rfl, ?_⟩
    rw [treeItems_eq, List.forall₂_map_left_iff, List.forall₂_same]
    exact ih
  | @object depth ms hd _ ih =>
    refine Tree.value?_object.2 ⟨_, ms, rfl, by rw [merged_of_nodup hd], ?_⟩
    rw [treeMembers_eq, List.forall₂_map_left_iff, List.forall₂_same]
    exact fun m hm => ⟨text?_pieces m.1, ih m hm⟩

/-- Both written forms spell the tree of a value. -/
theorem spells_array {vs : List Json} {write : Json → List Char} (hg : Spaces gap) (hl : Spaces last)
    (h : ∀ v ∈ vs, v.tree.Spells (write v)) :
    (tree (.array vs)).Spells (writeAll '[' ']' gap last (vs.map write)) := by
  rw [tree, treeItems_eq, Tree.Spells, tokens_items, List.map_map]
  refine spelling_all .arrayStart .arrayEnd hg hl ?_
  rw [List.forall₂_map_left_iff, List.forall₂_map_right_iff, List.forall₂_same]
  exact h

theorem spells_object {ms : List (String × Json)} {write : Json → List Char} {space : List Char}
    (hs : Spaces space) (hg : Spaces gap) (hl : Spaces last)
    (h : ∀ m ∈ ms, m.2.tree.Spells (write m.2)) :
    (tree (.object ms)).Spells
      (writeAll '\x7b' '\x7d' gap last (ms.map (fun m => writeMember space m.1 (write m.2)))) := by
  rw [tree, treeMembers_eq, Tree.Spells, tokens_members, List.map_map]
  refine spelling_all .objectStart .objectEnd hg hl ?_
  rw [List.forall₂_map_left_iff, List.forall₂_map_right_iff, List.forall₂_same]
  exact fun m hm => spelling_member hs m.1 (h m hm)

theorem spells_null : (tree .null).Spells "null".toList := spells_leaf .null

theorem spells_bool (b : Bool) :
    (tree (.bool b)).Spells (if b then "true".toList else "false".toList) := by
  cases b with
  | false => exact spells_leaf .no
  | true => exact spells_leaf .yes

theorem spells_string (s : String) : (tree (.string s)).Spells (quoted s) :=
  spells_leaf (spelled_quoted s)

theorem spells_compact_array {vs : List Json} (h : ∀ v ∈ vs, v.tree.Spells (compactChars v)) :
    (tree (.array vs)).Spells (compactChars (.array vs)) := by
  rw [compactChars_array]
  exact spells_array spaces_nil spaces_nil h

theorem spells_compact_object {ms : List (String × Json)}
    (h : ∀ m ∈ ms, m.2.tree.Spells (compactChars m.2)) :
    (tree (.object ms)).Spells (compactChars (.object ms)) := by
  rw [compactChars_object]
  exact spells_object spaces_nil spaces_nil spaces_nil h

theorem Returns.spells_compact {depth : Nat} {v : Json} (h : v.Returns depth) :
    v.tree.Spells (compactChars v) := by
  induction h with
  | null => exact spells_null
  | bool b => rw [compactChars]; exact spells_bool b
  | string s => exact spells_string s
  | number h => exact h.parse?.1
  | array _ ih => exact spells_compact_array ih
  | object _ _ ih => exact spells_compact_object ih

theorem Returns.spells_indented {depth : Nat} {v : Json} (h : v.Returns depth) (k : Nat) :
    v.tree.Spells (indentedChars k v) := by
  induction h generalizing k with
  | null => exact spells_null
  | bool b => rw [indentedChars]; exact spells_bool b
  | string s => exact spells_string s
  | number h => exact h.parse?.1
  | array _ ih =>
    rw [indentedChars_array]
    exact spells_array (spaces_lineBreak _) (spaces_lineBreak _) (fun v hv => ih v hv (k + 1))
  | object _ _ ih =>
    rw [indentedChars_object]
    exact spells_object spaces_blank (spaces_lineBreak _) (spaces_lineBreak _)
      (fun m hm => ih m hm (k + 1))

/-- The text is one JSON value, within the depth that is read. -/
def Holds (s : String) (v : Json) : Prop := ∃ t : Tree, t.Spells s.toList ∧ t.Means depthLimit v

theorem parse?_eq_some {s : String} {v : Json} : parse? s = some v ↔ Holds s v := by
  unfold parse? Holds
  simp only [Option.bind_eq_some_iff, Tree.parse?_eq_some, Tree.value?_eq_some]

theorem parse?_ofList (cs : List Char) :
    parse? (String.ofList cs) = (Tree.ofChars? cs).bind (Tree.value? depthLimit) := by
  rw [parse?, Tree.parse?_ofList]

/-- The doubles in a text come back when they are written and read again. -/
def FloatsReturn (s : String) : Prop :=
  ∀ v, Holds s v → ∀ x ∈ v.floats, (Number.float x).Returns

instance (n : Number) : Decidable n.Returns := inferInstanceAs (Decidable (_ = _))

theorem floatsReturn_iff {s : String} :
    FloatsReturn s ↔ ∀ v ∈ parse? s, ∀ x ∈ v.floats, (Number.float x).Returns := by
  simp only [FloatsReturn, Option.mem_def, parse?_eq_some]

instance (s : String) : Decidable (FloatsReturn s) := decidable_of_iff' _ floatsReturn_iff

theorem Holds.returns {s : String} {v : Json} (h : Holds s v) (hf : FloatsReturn s) :
    v.Returns depthLimit := by
  obtain ⟨t, -, ht⟩ := id h
  exact returns_of_value? (Tree.value?_eq_some.2 ht) (hf v h)

theorem Returns.holds_indented {v : Json} (h : v.Returns depthLimit) : Holds v.indented v := by
  refine ⟨v.tree, ?_, Tree.value?_eq_some.1 h.value?⟩
  rw [indented, String.toList_ofList]
  exact h.spells_indented 0

end StyledMap.Json
