import StyledMap.Proofs.Drawing.Legal
import StyledMap.Proofs.Json.Shapes

/-! Texts that describe styles. Which trees write a style down is said for each part of it, from
parameters to styles; the reader gets every legal style back from each of them. -/
namespace StyledMap
open Json (Tree)

/-- A parameter is an array of its name and its value. -/
inductive Symbolizer.WrittenParam (p : String × String) : Tree → Prop where
  | pair {name value : Tree} (hn : name.IsText p.1) (hv : value.IsText p.2) :
      WrittenParam p (.array [name, value])

inductive Symbolizer.Written (s : Symbolizer) (t : Tree) : Prop where
  | object {kind : Tree} {params : Option Tree} (hk : kind.IsText s.kind.keyword)
      (hp : Tree.Unless [] (fun ps t => t.ListOf WrittenParam ps) s.params params)
      (h : t.ObjectOf [("type", some kind), ("params", params)])

inductive Rule.Written (r : Rule) (t : Tree) : Prop where
  | object {filter minzoom maxzoom symbolizers : Option Tree}
      (hf : Tree.Maybe Tree.IsText r.filter filter)
      (hmin : Tree.Maybe Tree.IsWhole r.minzoom minzoom)
      (hmax : Tree.Maybe Tree.IsWhole r.maxzoom maxzoom)
      (hs : Tree.Unless [] (fun ss t => t.ListOf Symbolizer.Written ss) r.symbolizers symbolizers)
      (h : t.ObjectOf [("filter", filter), ("minzoom", minzoom), ("maxzoom", maxzoom),
        ("symbolizers", symbolizers)])

inductive Style.Written (s : Style) (t : Tree) : Prop where
  | object {name : Tree} {rules : Option Tree} (hn : name.IsText s.name)
      (hr : Tree.Unless [] (fun rs t => t.ListOf Rule.Written rs) s.rules rules)
      (h : t.ObjectOf [("name", some name), ("rules", rules)])

/-- The text is an array of these styles. -/
def Style.WrittenAll (styles : List Style) (text : String) : Prop :=
  ∃ t : Tree, t.Spells text.toList ∧ t.ListOf Style.Written styles

/-- Thresholds are named by numbers of 64 bits. -/
structure Rule.Small (r : Rule) : Prop where
  minzoom : ∀ n, r.minzoom = some n → n < 2 ^ 64
  maxzoom : ∀ n, r.maxzoom = some n → n < 2 ^ 64

instance (s : Symbolizer) : Decidable s.Legal :=
  inferInstanceAs (Decidable (∀ p ∈ s.params, Xml.Legal p.1.toList ∧ Xml.Legal p.2.toList))

instance (r : Rule) : Decidable r.Legal :=
  decidable_of_iff ((∀ text ∈ r.filter, Xml.Legal text.toList) ∧ ∀ s ∈ r.symbolizers, s.Legal)
    ⟨fun h => ⟨h.1, h.2⟩, fun h => ⟨h.filter, h.symbolizers⟩⟩

instance (s : Style) : Decidable s.Legal :=
  decidable_of_iff (Xml.Legal s.name.toList ∧ ∀ r ∈ s.rules, r.Legal)
    ⟨fun h => ⟨h.1, h.2⟩, fun h => ⟨h.name, h.rules⟩⟩

instance (r : Rule) : Decidable r.Small :=
  decidable_of_iff ((∀ n ∈ r.minzoom, n < 2 ^ 64) ∧ ∀ n ∈ r.maxzoom, n < 2 ^ 64)
    ⟨fun h => ⟨h.1, h.2⟩, fun h => ⟨h.minzoom, h.maxzoom⟩⟩

theorem le_maxUnsigned64 {n : Nat} (h : n < 2 ^ 64) : n ≤ Text.maxUnsigned64 := Nat.le_of_lt_succ h

/-! A text for all styles. Every member is written, in the order of the fields. -/

def Symbolizer.paramValue (p : String × String) : Json := .array [.string p.1, .string p.2]

def Symbolizer.value (s : Symbolizer) : Json :=
  .object [("type", .string s.kind.keyword), ("params", .array (s.params.map paramValue))]

def naturalValue (n : Nat) : Json := .number (.natural n)

def Rule.value (r : Rule) : Json :=
  .object [("filter", Json.orNull .string r.filter), ("minzoom", Json.orNull naturalValue r.minzoom),
    ("maxzoom", Json.orNull naturalValue r.maxzoom),
    ("symbolizers", .array (r.symbolizers.map Symbolizer.value))]

def Style.value (s : Style) : Json :=
  .object [("name", .string s.name), ("rules", .array (s.rules.map Rule.value))]

theorem Symbolizer.returns_value (s : Symbolizer) : s.value.Returns 3 := by
  have pairs : ∀ v ∈ s.params.map paramValue, v.Returns 1 := by
    simp only [List.forall_mem_map]
    intro p _
    exact .array (by simp [Json.Returns.string])
  refine .object (by simp) ?_
  simp only [List.forall_mem_cons]
  exact ⟨.string _, .array pairs, by simp⟩

theorem Rule.returns_value {r : Rule} (small : r.Small) : r.value.Returns 5 := by
  have symbolizers : ∀ v ∈ r.symbolizers.map Symbolizer.value, v.Returns 3 := by
    simp only [List.forall_mem_map]
    exact fun s _ => s.returns_value
  have natural (n : Nat) (h : n < 2 ^ 64) : (naturalValue n).Returns 4 :=
    .number (Json.Number.returns_natural (le_maxUnsigned64 h))
  refine .object (by simp) ?_
  simp only [List.forall_mem_cons]
  exact ⟨.orNull (fun text _ => .string text), .orNull (fun n h => natural n (small.minzoom n h)),
    .orNull (fun n h => natural n (small.maxzoom n h)), .array symbolizers, by simp⟩

theorem Style.returns_value {s : Style} (small : ∀ r ∈ s.rules, r.Small) : s.value.Returns 7 := by
  have rules : ∀ v ∈ s.rules.map Rule.value, v.Returns 5 := by
    simp only [List.forall_mem_map]
    exact fun r hr => Rule.returns_value (small r hr)
  refine .object (by simp) ?_
  simp only [List.forall_mem_cons]
  exact ⟨.string _, .array rules, by simp⟩

theorem Symbolizer.written_value (s : Symbolizer) : s.Written s.value.tree := by
  refine .object (Json.isText_tree _) (.given (Json.listOf_tree (fun p _ => ?_))) (Json.objectOf_tree _)
  rw [paramValue, Json.tree, Json.treeItems_eq]
  exact .pair (Json.isText_tree _) (Json.isText_tree _)

theorem Rule.written_value {r : Rule} (small : r.Small) : r.Written r.value.tree :=
  .object (Json.maybe_tree (fun text _ => Json.isText_tree text))
    (Json.maybe_tree (fun n h => Json.isWhole_tree (le_maxUnsigned64 (small.minzoom n h))))
    (Json.maybe_tree (fun n h => Json.isWhole_tree (le_maxUnsigned64 (small.maxzoom n h))))
    (.given (Json.listOf_tree (fun s _ => s.written_value))) (Json.objectOf_tree _)

theorem Style.written_value {s : Style} (small : ∀ r ∈ s.rules, r.Small) : s.Written s.value.tree :=
  .object (Json.isText_tree _)
    (.given (Json.listOf_tree (fun r hr => Rule.written_value (small r hr)))) (Json.objectOf_tree _)

theorem Style.exists_written {styles : List Style} (small : ∀ s ∈ styles, ∀ r ∈ s.rules, r.Small) :
    ∃ text, Style.WrittenAll styles text := by
  have returns : (Json.array (styles.map Style.value)).Returns 8 := by
    refine .array ?_
    simp only [List.forall_mem_map]
    exact fun s hs => Style.returns_value (small s hs)
  refine ⟨(Json.array (styles.map Style.value)).compact, _, ?_,
    Json.listOf_tree (fun s hs => Style.written_value (small s hs))⟩
  rw [Json.compact, String.toList_ofList]
  exact returns.spells_compact

namespace Drawing
open Json (Record)

/-- Parameters take two containers more: the list and the pair. -/
theorem params_read {kind : Symbolizer.Kind} {ps : List (String × String)} {t : Tree} (depth : Nat)
    (h : t.ListOf Symbolizer.WrittenParam ps)
    (legal : ∀ p ∈ ps, Xml.Legal p.1.toList ∧ Xml.Legal p.2.toList) :
    ∃ entries, params? (depth + 2) t = some entries ∧ entries.mapM (param kind) = .ok ps := by
  obtain ⟨ts, rfl, h⟩ := h
  refine ⟨ps.map (fun p => (p.1, .string p.2)), ?_, ?_⟩
  · have hv : Tree.value? (depth + 2) (.array ts) =
        some (.array (ps.map (fun p => .array [.string p.1, .string p.2]))) := by
      refine Tree.value?_array.2 ⟨_, _, rfl, rfl, List.forall₂_map_right_iff.2 (h.imp ?_).flip⟩
      intro p t hp
      cases hp with
      | pair hn hv =>
        refine Tree.value?_array.2 ⟨_, _, rfl, rfl, ?_⟩
        exact .cons (hn.value? _) (.cons (hv.value? _) .nil)
    rw [params?, hv]
    refine Json.allOf?_eq_some.2 ⟨_, rfl, ?_⟩
    rw [List.forall₂_map_left_iff, List.forall₂_map_right_iff, List.forall₂_same]
    exact fun p _ => rfl
  · rw [Steps.mapM_eq_ok, List.forall₂_map_left_iff, List.forall₂_same]
    intro p hp
    have checked (text : String) (h : Xml.Legal text.toList) :
        checkText (kind.keyword ++ " symbolizer parameter") text = .ok () := checkText_eq_ok.2 h
    simp only [param, Json.scalar?, checked _ (legal p hp).1, checked _ (legal p hp).2]
    rfl

theorem symbolizer_read {s : Symbolizer} {t : Tree} (depth : Nat) (h : s.Written t)
    (legal : s.Legal) :
    ∃ e, SymbolizerEntry.ofTree? (depth + 3) t = some e ∧ e.symbolizer = .ok s := by
  cases h with
  | @object kind params hk hp h =>
    obtain ⟨r, hr, hfields⟩ :=
      h.record [(⟨0, ["type"]⟩, some kind), (⟨1, ["params"]⟩, params)] (by simp)
    simp only [List.forall_mem_cons] at hfields
    obtain ⟨hkind, hparams, -⟩ := hfields
    have hlist : ∃ entries, r.orElse? ⟨1, ["params"]⟩ [] (params? (depth + 2)) = some entries ∧
        entries.mapM (param s.kind) = .ok s.params :=
      Record.orElse?_of hparams hp (fun t ht => params_read depth ht legal)
    obtain ⟨entries, hentries, hps⟩ := hlist
    refine ⟨⟨s.kind.keyword, entries⟩, ?_, ?_⟩
    · simp only [SymbolizerEntry.ofTree?, Option.bind_eq_bind, Option.bind_eq_some_iff,
        Option.pure_def]
      exact ⟨r, hr, _, Record.required?_of hkind (Tree.string?_eq_some.2 hk), entries, hentries, rfl⟩
    · rw [SymbolizerEntry.symbolizer, Symbolizer.Kind.ofKeyword?_keyword]
      simp only [hps]
      rfl

theorem rule_read {r : Rule} {t : Tree} (depth : Nat) (h : r.Written t) (legal : r.Legal)
    (small : r.Small) : ∃ e, RuleEntry.ofTree? (depth + 5) t = some e ∧ e.rule = .ok r := by
  cases h with
  | @object filter minzoom maxzoom symbolizers hf hmin hmax hs h =>
    obtain ⟨record, hr, hfields⟩ := h.record [(⟨0, ["filter"]⟩, filter), (⟨1, ["minzoom"]⟩, minzoom),
      (⟨2, ["maxzoom"]⟩, maxzoom), (⟨3, ["symbolizers"]⟩, symbolizers)] (by simp)
    simp only [List.forall_mem_cons] at hfields
    obtain ⟨hfilter, hminzoom, hmaxzoom, hsymbolizers, -⟩ := hfields
    obtain ⟨entries, hentries, hmake⟩ := Record.orElse?_of hsymbolizers hs (fun t ht =>
      ht.read (fun s hs t ht => symbolizer_read depth ht (legal.symbolizers s hs)))
    have hchecked : checkFilter r.filter = .ok () := by
      cases hfilter : r.filter with
      | none => rfl
      | some text => exact checkText_eq_ok.2 (legal.filter text hfilter)
    refine ⟨⟨r.filter, r.minzoom, r.maxzoom, entries⟩, ?_, ?_⟩
    · simp only [RuleEntry.ofTree?, Option.bind_eq_bind, Option.bind_eq_some_iff, Option.pure_def]
      exact ⟨record, hr,
        _, Record.optional?_of hfilter hf (fun _ _ _ ht => ⟨ht.isNull, Tree.string?_eq_some.2 ht⟩),
        _, Record.optional?_of hminzoom hmin
          (fun n _ hn ht => ⟨ht.isNull, Tree.natural?_eq_some.2 ⟨ht, le_maxUnsigned64 (small.minzoom n hn)⟩⟩),
        _, Record.optional?_of hmaxzoom hmax
          (fun n _ hn ht => ⟨ht.isNull, Tree.natural?_eq_some.2 ⟨ht, le_maxUnsigned64 (small.maxzoom n hn)⟩⟩),
        entries, hentries, rfl⟩
    · simp only [RuleEntry.rule, hmake, hchecked]
      rfl

theorem style_read {s : Style} {t : Tree} (depth : Nat) (h : s.Written t) (legal : s.Legal)
    (small : ∀ r ∈ s.rules, r.Small) :
    ∃ e, StyleEntry.ofTree? (depth + 7) t = some e ∧ e.style = .ok s := by
  cases h with
  | @object name rules hn hr h =>
    obtain ⟨record, hrecord, hfields⟩ :=
      h.record [(⟨0, ["name"]⟩, some name), (⟨1, ["rules"]⟩, rules)] (by simp)
    simp only [List.forall_mem_cons] at hfields
    obtain ⟨hname, hrules, -⟩ := hfields
    obtain ⟨entries, hentries, hmake⟩ := Record.orElse?_of hrules hr (fun t ht =>
      ht.read (fun r hr t ht => rule_read depth ht (legal.rules r hr) (small r hr)))
    have hchecked : checkText "style name" s.name = .ok () := checkText_eq_ok.2 legal.name
    refine ⟨⟨s.name, entries⟩, ?_, ?_⟩
    · simp only [StyleEntry.ofTree?, Option.bind_eq_bind, Option.bind_eq_some_iff, Option.pure_def]
      exact ⟨record, hrecord, _, Record.required?_of hname (Tree.string?_eq_some.2 hn), entries, hentries, rfl⟩
    · simp only [StyleEntry.style, hchecked, hmake]
      rfl

theorem readStyles_of_written {styles : List Style} {text : String}
    (legal : ∀ s ∈ styles, s.Legal) (small : ∀ s ∈ styles, ∀ r ∈ s.rules, r.Small)
    (h : Style.WrittenAll styles text) : readStyles text = .ok styles := by
  obtain ⟨t, ht, hlist⟩ := h
  obtain ⟨entries, hentries, hmake⟩ :=
    hlist.read (fun s hs t ht => style_read 119 ht (legal s hs) (small s hs))
  have hread : styleEntries? text = some entries := by
    rw [styleEntries?, Tree.parse?_eq_some.2 ht, Option.bind_some]
    exact hentries
  rw [readStyles, hread]
  exact hmake

/-- Every list of legal styles has a text, and whichever text it is, the reader gives the list. -/
theorem readStyles_reaches (styles : List Style) (legal : ∀ s ∈ styles, s.Legal)
    (small : ∀ s ∈ styles, ∀ r ∈ s.rules, r.Small) :
    (∃ text, Style.WrittenAll styles text) ∧
      ∀ text, Style.WrittenAll styles text → readStyles text = .ok styles :=
  ⟨Style.exists_written small, fun _ => readStyles_of_written legal small⟩

def filled : Symbolizer := ⟨.polygon, [("fill", "#fff"), ("fill", "é/")]⟩
def farRule : Rule := ⟨none, none, some 7, [filled]⟩

/-- One style with a rule, and one without. -/
def spelledStyles : List Style := [⟨"roads", [farRule]⟩, ⟨"😀", []⟩]

/-- Members out of order or left out, and escapes where none are needed. -/
def spelledStylesText : String :=
  "[ \x7b\"rules\" : [\x7b\"symbolizers\":[\x7b\"params\":
   [[\"fill\",\"\\u0023fff\"] , [\"fill\",\"\\u00e9\\/\"]],\n\"type\":\"polygon\"\x7d],
   \"maxzoom\":7, \"filter\":null\x7d],\t\"n\\u0061me\":\"roads\"\x7d,\r\n
   \x7b\"name\":\"\\uD83D\\uDE00\"\x7d ]"

open Json (pieces) in
theorem readStyles_reaches_spelled : readStyles spelledStylesText = .ok spelledStyles := by
  refine (readStyles_reaches spelledStyles (by decide) (by decide)).2 spelledStylesText ?_
  let word (s : String) : Tree := (Json.string s).tree
  let pairs : Tree := .array [
    .array [word "fill", .leaf (.string (.unit 0x23 :: pieces "fff"))],
    .array [word "fill", .leaf (.string [.unit 0xE9, .char '/'])]]
  let seven : Tree := .leaf (.numeral ⟨false, [7], [], none⟩)
  let polygon : Tree := .object [(pieces "params", pairs), (pieces "type", word "polygon")]
  let rule : Tree := .object [(pieces "symbolizers", .array [polygon]),
    (pieces "maxzoom", seven), (pieces "filter", .leaf .null)]
  let roads : Tree := .object [(pieces "rules", .array [rule]),
    (.char 'n' :: .unit 0x61 :: pieces "me", word "roads")]
  let face : Tree := .leaf (.string [.unit 0xD83D, .unit 0xDE00])
  let smile : Tree := .object [(pieces "name", face)]
  have hword (s : String) : (word s).IsText s := Json.isText_tree s
  have hseven : seven.IsWhole 7 := (Tree.natural?_eq_some.1 (by decide +kernel)).1
  have hface : face.IsText "😀" := by decide +kernel
  have hpairs : pairs.ListOf Symbolizer.WrittenParam filled.params :=
    ⟨_, rfl, .cons (.pair (hword "fill") (by decide +kernel))
      (.cons (.pair (hword "fill") (by decide +kernel)) .nil)⟩
  have hpolygon : filled.Written polygon :=
    .object (hword "polygon") (.given hpairs) (by decide +kernel)
  have hrule : farRule.Written rule :=
    .object .null .missing (.given hseven) (.given ⟨_, rfl, .cons hpolygon .nil⟩)
      (by decide +kernel)
  have hroads : Style.Written ⟨"roads", [farRule]⟩ roads :=
    .object (hword "roads") (.given ⟨_, rfl, .cons hrule .nil⟩) (by decide +kernel)
  have hsmile : Style.Written ⟨"😀", []⟩ smile :=
    .object hface .missing (by decide +kernel)
  refine ⟨.array [roads, smile], Tree.parse?_eq_some.1 ?_, _, rfl,
    .cons hroads (.cons hsmile .nil)⟩
  rw [spelledStylesText, Tree.parse?_ofList]
  decide +kernel

end Drawing
end StyledMap
