import StyledMap.Drawing.StyleReader
import StyledMap.Proofs.Json.Differences

/-! The two ways to give parameters: an object, and an array of pairs. Texts of styles that differ in
nothing else are read alike, down to the fault, if the pairs hold each name of the object once, at
its first place and with its last value. -/
namespace StyledMap.Drawing
open Json (Tree Record Merges merged)

/-- An array of a pair for each of these, in order. -/
def AsPairs (depth : Nat) (given : List (String × Json)) (t : Tree) : Prop :=
  t.ListOf (fun g u => ∃ name value, u = .array [name, value] ∧ name.IsText g.1 ∧
    value.Means depth g.2) given

section Shapes
variable (K : List (String × Json) → List (String × Json) → Prop) (depth : Nat)

/-- Parameters as an object, and as pairs that go with it by K. The pairs put one more container around
a value. -/
def TwoShapes (t u : Tree) : Prop :=
  ∃ given pairs, K given pairs ∧ t.Gives (depth + 1) given ∧ AsPairs depth pairs u

def SymbolizerShapes : Tree → Tree → Prop := Tree.DifferAt 1 "params" (TwoShapes K depth)
def RuleShapes : Tree → Tree → Prop := Tree.DifferAt 3 "symbolizers" (Tree.Items (SymbolizerShapes K depth))
def StyleShapes : Tree → Tree → Prop := Tree.DifferAt 1 "rules" (Tree.Items (RuleShapes K depth))

/-- Texts of the same styles, apart from the shape of some of their parameters. -/
def SameButShapes (text other : String) : Prop :=
  ∃ t u : Tree, t.Spells text.toList ∧ u.Spells other.toList ∧
    Tree.Items (StyleShapes K (Json.depthLimit - 8)) t u

end Shapes

section Read
variable {K : List (String × Json) → List (String × Json) → Prop} {depth : Nat} {t u : Tree}

theorem params?_object {given : List (String × Json)} (h : t.Gives depth given) :
    params? (depth + 1) t = some (merged given) := by
  rw [params?, Tree.value?_eq_object.2 ⟨given, h, rfl⟩]

/-- A parameter as a pair. -/
def pairValue (g : String × Json) : Json := .array [.string g.1, g.2]

theorem params?_pairs {given : List (String × Json)} (h : AsPairs depth given t) :
    params? (depth + 2) t = some given := by
  obtain ⟨ts, rfl, h⟩ := h
  have hv : Tree.value? (depth + 2) (.array ts) = some (.array (given.map pairValue)) := by
    refine Tree.value?_array.2 ⟨depth + 1, _, rfl, rfl, List.forall₂_map_right_iff.2 (h.imp ?_).flip⟩
    rintro g _ ⟨name, value, rfl, hname, hvalue⟩
    exact Tree.value?_array.2 ⟨depth, _, rfl, rfl,
      .cons (hname.value? depth) (.cons (Tree.value?_eq_some.2 hvalue) .nil)⟩
  have hpairs : Json.allOf? paramPair? [] (given.map pairValue) = some given :=
    Json.allOf?_eq_some.2 ⟨given, rfl, List.forall₂_map_left_iff.2 (List.forall₂_same.2 fun _ _ => rfl)⟩
  rw [params?, hv]
  exact hpairs

/-- Both shapes hold the same parameters in the same order. -/
theorem params?_shapes (hK : ∀ given pairs, K given pairs → pairs = merged given)
    (h : TwoShapes K depth t u) : params? (depth + 2) t = params? (depth + 2) u := by
  obtain ⟨given, pairs, hgiven, ht, hu⟩ := h
  rw [params?_object ht, params?_pairs hu, hK given pairs hgiven]

section
variable (hK : ∀ given pairs, K given pairs → pairs = merged given)
include hK

theorem SymbolizerEntry.ofTree?_shapes (h : SymbolizerShapes K depth t u) :
    ofTree? (depth + 3) t = ofTree? (depth + 3) u := by
  simp only [ofTree?, Option.bind_eq_bind]
  refine Json.bind_eq_of_rel (Record.ofTree?_differAt h) fun r r' hr => ?_
  have hparams : r.orElse? ⟨1, ["params"]⟩ [] (params? (depth + 3 - 1)) =
      r'.orElse? ⟨1, ["params"]⟩ [] (params? (depth + 3 - 1)) :=
    Record.orElse?_differ hr fun _ _ => params?_shapes hK
  rw [Record.required?_same (hr.1 ⟨0, ["type"]⟩ (by decide) (by decide)), hparams]

theorem RuleEntry.ofTree?_shapes (h : RuleShapes K depth t u) :
    ofTree? (depth + 5) t = ofTree? (depth + 5) u := by
  simp only [ofTree?, Option.bind_eq_bind]
  refine Json.bind_eq_of_rel (Record.ofTree?_differAt h) fun r r' hr => ?_
  have hsymbolizers :
      r.orElse? ⟨3, ["symbolizers"]⟩ [] (Tree.list? (SymbolizerEntry.ofTree? (depth + 5 - 2))) =
        r'.orElse? ⟨3, ["symbolizers"]⟩ [] (Tree.list? (SymbolizerEntry.ofTree? (depth + 5 - 2))) :=
    Record.orElse?_differ hr fun _ _ h =>
      Tree.list?_items h fun _ _ => SymbolizerEntry.ofTree?_shapes hK
  rw [Record.optional?_same (hr.1 ⟨0, ["filter"]⟩ (by decide) (by decide)),
    Record.optional?_same (hr.1 ⟨1, ["minzoom"]⟩ (by decide) (by decide)),
    Record.optional?_same (hr.1 ⟨2, ["maxzoom"]⟩ (by decide) (by decide)), hsymbolizers]

theorem StyleEntry.ofTree?_shapes (h : StyleShapes K depth t u) :
    ofTree? (depth + 7) t = ofTree? (depth + 7) u := by
  simp only [ofTree?, Option.bind_eq_bind]
  refine Json.bind_eq_of_rel (Record.ofTree?_differAt h) fun r r' hr => ?_
  have hrules : r.orElse? ⟨1, ["rules"]⟩ [] (Tree.list? (RuleEntry.ofTree? (depth + 7 - 2))) =
      r'.orElse? ⟨1, ["rules"]⟩ [] (Tree.list? (RuleEntry.ofTree? (depth + 7 - 2))) :=
    Record.orElse?_differ hr fun _ _ h => Tree.list?_items h fun _ _ => RuleEntry.ofTree?_shapes hK
  rw [Record.required?_same (hr.1 ⟨0, ["name"]⟩ (by decide) (by decide)), hrules]

theorem styleEntries?_shapes {text other : String} (h : SameButShapes K text other) :
    styleEntries? text = styleEntries? other := by
  obtain ⟨t, u, ht, hu, h⟩ := h
  rw [styleEntries?, styleEntries?, Tree.parse?_eq_some.2 ht, Tree.parse?_eq_some.2 hu]
  exact Tree.list?_items h fun _ _ => StyleEntry.ofTree?_shapes hK

theorem readStyles_of_shapes {text other : String} (h : SameButShapes K text other) :
    readStyles text = readStyles other := by
  rw [readStyles, readStyles, styleEntries?_shapes hK h]

end
end Read

/-! A style of one symbolizer, with its parameters in either shape. -/

def paramStyle (name kind : String) (params : Json) : Json :=
  .array [.object [("name", .string name), ("rules", .array [.object [("symbolizers",
    .array [.object [("type", .string kind), ("params", params)]])]])]]

section Written
variable {K : List (String × Json) → List (String × Json) → Prop} {depth : Nat}
variable {given pairs : List (String × Json)} {params others : Json}

theorem asPairs_tree (h : ∀ g ∈ given, g.2.Returns depth) :
    AsPairs depth given (Json.array (given.map pairValue)).tree := by
  refine Json.listOf_tree fun g hg => ?_
  rw [pairValue, Json.tree, Json.treeItems_eq]
  exact ⟨_, _, rfl, Json.isText_tree g.1, Tree.value?_eq_some.1 (h g hg).value?⟩

theorem spells_paramStyle (name kind : String) (h : params.tree.Spells params.compactChars) :
    (paramStyle name kind params).tree.Spells (paramStyle name kind params).compact.toList := by
  have hstring (s : String) : (Json.string s).tree.Spells (Json.string s).compactChars :=
    Json.spells_string s
  rw [Json.compact, String.toList_ofList, paramStyle]
  refine Json.spells_compact_array (List.forall_mem_singleton.2 (Json.spells_compact_object ?_))
  refine List.forall_mem_cons.2 ⟨hstring name, List.forall_mem_singleton.2 ?_⟩
  refine Json.spells_compact_array (List.forall_mem_singleton.2 (Json.spells_compact_object ?_))
  refine List.forall_mem_singleton.2 ?_
  refine Json.spells_compact_array (List.forall_mem_singleton.2 (Json.spells_compact_object ?_))
  exact List.forall_mem_cons.2 ⟨hstring kind, List.forall_mem_singleton.2 h⟩

theorem items_tree {R : Tree → Tree → Prop} {v w : Json} (h : R v.tree w.tree) :
    Tree.Items R (Json.array [v]).tree (Json.array [w]).tree :=
  ⟨_, _, rfl, rfl, .cons h .nil⟩

theorem styleShapes_paramStyle (name kind : String) (h : TwoShapes K depth params.tree others.tree) :
    Tree.Items (StyleShapes K depth) (paramStyle name kind params).tree
      (paramStyle name kind others).tree := by
  have hsymbolizer : SymbolizerShapes K depth
      (Json.object [("type", .string kind), ("params", params)]).tree
      (Json.object [("type", .string kind), ("params", others)]).tree :=
    .named (Json.differ_tree (.cons ⟨rfl, .inl rfl⟩ (.cons ⟨rfl, .inr ⟨rfl, h⟩⟩ .nil)))
  have hrule : RuleShapes K depth
      (Json.object [("symbolizers", .array [.object [("type", .string kind), ("params", params)]])]).tree
      (Json.object [("symbolizers", .array [.object [("type", .string kind), ("params", others)]])]).tree :=
    .named (Json.differ_tree (.cons ⟨rfl, .inr ⟨rfl, items_tree hsymbolizer⟩⟩ .nil))
  refine items_tree (.named (Json.differ_tree ?_))
  exact .cons ⟨rfl, .inl rfl⟩ (.cons ⟨rfl, .inr ⟨rfl, items_tree hrule⟩⟩ .nil)

/-- Every symbolizer can be written with its parameters in both shapes. -/
theorem sameButShapes_paramStyle (name kind : String) (hK : K given pairs)
    (hgiven : ∀ g ∈ given, g.2.Returns (Json.depthLimit - 8))
    (hpairs : ∀ g ∈ pairs, g.2.Returns (Json.depthLimit - 8)) :
    SameButShapes K (paramStyle name kind (.object given)).compact
      (paramStyle name kind (.array (pairs.map pairValue))).compact := by
  refine ⟨_, _, spells_paramStyle name kind ?_, spells_paramStyle name kind ?_,
    styleShapes_paramStyle name kind ⟨given, pairs, hK, ?_, asPairs_tree hpairs⟩⟩
  · exact Json.spells_compact_object fun g hg => (hgiven g hg).spells_compact
  · refine Json.spells_compact_array fun v hv => ?_
    obtain ⟨g, hg, rfl⟩ := List.mem_map.1 hv
    exact Json.spells_compact_array (List.forall_mem_cons.2 ⟨Json.spells_string g.1,
      List.forall_mem_singleton.2 (hpairs g hg).spells_compact⟩)
  · obtain ⟨ms, ht, h⟩ := Json.gives_tree hgiven
    exact ⟨ms, ht, h.imp fun m g hm => ⟨hm.1, hm.2.mono (Nat.le_succ _)⟩⟩

end Written

/-- Parameters may be given as an object or as pairs. For a style it makes no difference, whatever its
symbolizers are and whatever the values are, if the pairs are the members of the object merged; and so
if no name stands twice and the pairs are the members themselves. -/
theorem readStyles_shapes :
    (∀ text other, SameButShapes Merges text other → readStyles text = readStyles other) ∧
    (∀ text other,
      SameButShapes (fun given pairs => (given.map (·.1)).Nodup ∧ pairs = given) text other →
        readStyles text = readStyles other) ∧
    ∀ name kind given pairs, Merges given pairs →
      (∀ g ∈ given, g.2.Returns (Json.depthLimit - 8)) →
        readStyles (paramStyle name kind (.object given)).compact =
          readStyles (paramStyle name kind (.array (pairs.map pairValue))).compact := by
  have hmerges : ∀ given pairs : List (String × Json), Merges given pairs → pairs = merged given :=
    fun given pairs => Json.merges_iff.1
  refine ⟨fun text other h => readStyles_of_shapes hmerges h,
    fun text other h => readStyles_of_shapes ?_ h, fun name kind given pairs h hgiven => ?_⟩
  · rintro given _ ⟨hd, rfl⟩
    exact (Json.merged_of_nodup hd).symm
  · refine readStyles_of_shapes hmerges (sameButShapes_paramStyle name kind h hgiven fun g hg => ?_)
    obtain rfl := hmerges given pairs h
    exact hgiven g (Json.mem_of_mem_merged hg)

/-- A name that stands twice, and a value that is no scalar. -/
def strokeTwice : List (String × Json) :=
  [("stroke", .number (.natural 1)), ("dash", .array []), ("stroke", .string "#abc")]

def strokeOnce : List (String × Json) := [("stroke", .string "#abc"), ("dash", .array [])]

def lineText (params : Json) : String := (paramStyle "road" "line" params).compact

theorem readStyles_shapes_stroke :
    Merges strokeTwice strokeOnce ∧
    SameButShapes Merges (lineText (.object strokeTwice))
      (lineText (.array (strokeOnce.map pairValue))) ∧
    readStyles (lineText (.object strokeTwice)) =
      readStyles (lineText (.array (strokeOnce.map pairValue))) ∧
    SameButShapes (fun given pairs => (given.map (·.1)).Nodup ∧ pairs = given)
      (lineText (.object strokeOnce)) (lineText (.array (strokeOnce.map pairValue))) ∧
    readStyles (lineText (.object strokeOnce)) =
      readStyles (lineText (.array (strokeOnce.map pairValue))) ∧
    (∀ g ∈ strokeTwice, g.2.Returns (Json.depthLimit - 8)) ∧
    readStyles (paramStyle "road" "halo" (.object strokeTwice)).compact =
      readStyles (paramStyle "road" "halo" (.array (strokeOnce.map pairValue))).compact := by
  have hmerges : Merges strokeTwice strokeOnce := Json.merges_iff.2 rfl
  have htwice : ∀ g ∈ strokeTwice, g.2.Returns (Json.depthLimit - 8) := by
    simp only [strokeTwice, List.forall_mem_cons]
    exact ⟨.number (Json.Number.returns_natural (by decide)), .array (List.forall_mem_nil _),
      .string _, List.forall_mem_nil _⟩
  have honce : ∀ g ∈ strokeOnce, g.2.Returns (Json.depthLimit - 8) := by
    simp only [strokeOnce, List.forall_mem_cons]
    exact ⟨.string _, .array (List.forall_mem_nil _), List.forall_mem_nil _⟩
  have hshapes := sameButShapes_paramStyle "road" "line" hmerges htwice honce
  have hdistinct := sameButShapes_paramStyle
    (K := fun given pairs => (given.map (·.1)).Nodup ∧ pairs = given) "road" "line"
    ⟨(by decide : (strokeOnce.map (·.1)).Nodup), rfl⟩ honce honce
  exact ⟨hmerges, hshapes, readStyles_shapes.1 _ _ hshapes, hdistinct,
    readStyles_shapes.2.1 _ _ hdistinct, htwice,
    readStyles_shapes.2.2 "road" "halo" strokeTwice strokeOnce hmerges htwice⟩

end StyledMap.Drawing
