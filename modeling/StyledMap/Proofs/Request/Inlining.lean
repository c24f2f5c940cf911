import StyledMap.Proofs.Drawing.Rewriting
import StyledMap.Proofs.Json.Trimming
import StyledMap.Proofs.Request.Parameters

/-! Jobs that hold their documents as strings, and jobs that hold them as values. Both ask for the
same: a value is written as text again before it is read, and nothing that is read of it is lost. -/
namespace StyledMap.Request
open Json (Tree Piece)
open Steps

/-- The parameters that are documents themselves. -/
def documents : List String := ["style", "zooms", "layers"]

/-- A member of a job, and the same with the text of its string in place of the string. -/
inductive Inlined : List Piece × Tree → List Piece × Tree → Prop where
  | same (m : List Piece × Tree) : Inlined m m
  | inlined {ps qs : List Piece} {name text : String} {t : Tree} (hn : Json.Characters ps name.toList)
      (hd : name ∈ documents) (hs : Json.Characters qs text.toList) (ht : t.Spells text.toList) :
      Inlined (ps, .leaf (.string qs)) (ps, t)

/-- A job as a text, and the same job with some of its documents in place of their strings. -/
def Inlines (quoted inlined : String) : Prop :=
  ∃ ms ms', (Tree.object ms).Spells quoted.toList ∧ (Tree.object ms').Spells inlined.toList ∧
    List.Forall₂ Inlined ms ms'

/-- The characters of a tree that is a string. -/
def letters? : Tree → Option (List Char)
  | .leaf (.string s) => Json.charsOnto [] s
  | _ => none

theorem inlined_iff {m n : List Piece × Tree} : Inlined m n ↔ m = n ∨
    m.1 = n.1 ∧ (∃ name ∈ Json.text? m.1, name ∈ documents) ∧
      ∃ cs ∈ letters? m.2, Tree.ofChars? cs = some n.2 := by
  constructor
  · intro h
    cases h with
    | same => exact .inl rfl
    | inlined hn hd hs ht =>
      exact .inr ⟨rfl, ⟨_, Json.text?_eq_some.2 hn, hd⟩, _, hs.charsOnto [], Tree.ofChars?_eq_some.2 ht⟩
  · rintro (rfl | ⟨hname, ⟨name, hn, hd⟩, cs, hs, ht⟩)
    · exact .same m
    · obtain ⟨ps, t⟩ := m
      obtain ⟨_, u⟩ := n
      obtain rfl : ps = _ := hname
      cases t with
      | array ts | object ms => cases hs
      | leaf l => cases l with
        | null | bool | numeral => cases hs
        | string qs =>
          obtain ⟨cs, rfl, hs⟩ := Json.characters_of_charsOnto hs
          rw [← String.toList_ofList (l := cs)] at hs
          refine .inlined (Json.text?_eq_some.1 hn) hd hs ?_
          rw [String.toList_ofList]
          exact Tree.ofChars?_eq_some.1 ht

instance (m n : List Piece × Tree) : Decidable (Inlined m n) := decidable_of_iff' _ inlined_iff

/-- The members of a job, as characters. -/
def members? (cs : List Char) : Option (List (List Piece × Tree)) :=
  match Tree.ofChars? cs with
  | some (.object ms) => some ms
  | _ => none

theorem members?_eq_some {cs : List Char} {ms : List (List Piece × Tree)} :
    members? cs = some ms ↔ (Tree.object ms).Spells cs := by
  rw [← Tree.ofChars?_eq_some, members?]
  cases Tree.ofChars? cs with
  | none => simp
  | some t => cases t <;> simp

theorem inlines_iff {quoted inlined : String} : Inlines quoted inlined ↔
    ∃ ms ∈ members? quoted.toList, ∃ ms' ∈ members? inlined.toList, List.Forall₂ Inlined ms ms' := by
  simp only [Inlines, Option.mem_def, members?_eq_some]
  constructor
  · rintro ⟨ms, ms', h, h', hall⟩
    exact ⟨ms, h, ms', h', hall⟩
  · rintro ⟨ms, h, ms', h', hall⟩
    exact ⟨ms, ms', h, h', hall⟩

/-- The value of a member, before and after. -/
def Replaced (name : String) (v w : Json) : Prop :=
  v = w ∨ name ∈ documents ∧ ∃ (text : String) (t : Tree) (depth : Nat),
    v = .string text ∧ t.Spells text.toList ∧ t.value? depth = some w

namespace Params

theorem lookup_map {α β : Type} (f : α → β) (ms : List (String × α)) (name : String) :
    (ms.map (fun m => (m.1, f m.2))).lookup name = (ms.lookup name).map f := by
  induction ms with
  | nil => rfl
  | cons m ms ih =>
    rw [List.map_cons, Json.lookup_cons, Json.lookup_cons, ih]
    split <;> rfl

/-- The parameters of a job are its members, each with its last value. -/
theorem get?_ofJson {text : String} {ms : List (List Piece × Tree)} {p : Params}
    (ht : (Tree.object ms).Spells text.toList) (hp : ofJson text = .ok p) :
    ∃ given, Json.Holds text (.object (Json.merged given)) ∧
      List.Forall₂ (fun m g => Json.text? m.1 = some g.1 ∧ m.2.value? (Json.depthLimit - 1) = some g.2)
        ms given ∧
      ∀ name, p.get? name = ((Json.merged given).lookup name).map memberText := by
  unfold ofJson at hp
  cases hv : Json.parse? text with
  | none => simp [hv] at hp
  | some v =>
    have hvalue : (Tree.object ms).value? Json.depthLimit = some v := by
      rw [Json.parse?, Tree.parse?_eq_some.2 ht] at hv
      exact hv
    obtain ⟨d, given, hd, rfl, hall⟩ := Tree.value?_object.1 hvalue
    obtain rfl : d = Json.depthLimit - 1 := (Nat.succ.inj hd).symm
    refine ⟨given, Json.parse?_eq_some.1 hv, hall, fun name => ?_⟩
    rw [hv] at hp
    obtain rfl := Except.ok.inj hp
    have hnodup : ((Json.merged given).map (·.1)).Nodup := Json.nodup_merged given
    rw [get?_ofPairs, ← List.map_reverse, lookup_map, ← (Json.merges_merged _).values,
      Json.merged_of_nodup hnodup]


theorem lookup_rel {α β : Type} {R : String → α → β → Prop} {ms : List (String × α)}
    {ns : List (String × β)} (h : List.Forall₂ (fun m n => m.1 = n.1 ∧ R m.1 m.2 n.2) ms ns)
    (name : String) : Option.Rel (R name) (ms.lookup name) (ns.lookup name) := by
  induction h with
  | nil => exact .none
  | @cons m n ms ns hm _ ih =>
    obtain ⟨key, a⟩ := m
    obtain ⟨key', b⟩ := n
    obtain ⟨rfl, hr⟩ := hm
    rw [Json.lookup_cons, Json.lookup_cons]
    split
    · rename_i he
      exact .some (he ▸ hr)
    · exact ih

theorem given_replaced {depth : Nat} {ms ms' : List (List Piece × Tree)}
    {given given' : List (String × Json)} (h : List.Forall₂ Inlined ms ms')
    (hg : List.Forall₂ (fun m g => Json.text? m.1 = some g.1 ∧ m.2.value? depth = some g.2) ms given)
    (hg' : List.Forall₂ (fun m g => Json.text? m.1 = some g.1 ∧ m.2.value? depth = some g.2)
      ms' given') :
    List.Forall₂ (fun g g' => g.1 = g'.1 ∧ Replaced g.1 g.2 g'.2) given given' := by
  induction h generalizing given given' with
  | nil =>
    cases hg
    cases hg'
    exact .nil
  | @cons m m' ms ms' hm _ ih =>
    obtain ⟨g, given, ⟨hname, hvalue⟩, hrest, rfl⟩ := List.forall₂_cons_left_iff.1 hg
    obtain ⟨g', given', ⟨hname', hvalue'⟩, hrest', rfl⟩ := List.forall₂_cons_left_iff.1 hg'
    refine .cons ?_ (ih hrest hrest')
    cases hm with
    | same =>
      exact ⟨Option.some.inj (hname.symm.trans hname'),
        .inl (Option.some.inj (hvalue.symm.trans hvalue'))⟩
    | @inlined ps qs name text t hn hd hs ht =>
      obtain rfl : name = g.1 := Option.some.inj ((Json.text?_eq_some.2 hn).symm.trans hname)
      refine ⟨Option.some.inj (hname.symm.trans hname'), .inr ⟨hd, text, t, depth, ?_, ht, hvalue'⟩⟩
      rw [Tree.value?, Json.Leaf.value?, Json.text?_eq_some.2 hs] at hvalue
      exact (Option.some.inj hvalue).symm

/-- What a parameter is in both jobs: the same, or a text and what is written of its value. -/
theorem get?_inlined {quoted inlined : String} {p q : Params} (h : Inlines quoted inlined)
    (hf : Json.FloatsReturn inlined) (hp : ofJson quoted = .ok p) (hq : ofJson inlined = .ok q)
    (name : String) : p.get? name = q.get? name ∨
      name ∈ documents ∧ ∃ (text : String) (t : Tree) (depth : Nat) (v : Json),
        p.get? name = some text ∧ t.Spells text.toList ∧ t.value? depth = some v ∧
        (∀ x ∈ v.floats, (Json.Number.float x).Returns) ∧ q.get? name = some (memberText v) := by
  obtain ⟨ms, ms', hms, hms', hall⟩ := h
  obtain ⟨given, -, hgiven, hget⟩ := get?_ofJson hms hp
  obtain ⟨given', hholds, hgiven', hget'⟩ := get?_ofJson hms' hq
  have hrel := lookup_rel (List.forall₂_reverse_iff.2 (given_replaced hall hgiven hgiven')) name
  rw [← (Json.merges_merged given).values, ← (Json.merges_merged given').values] at hrel
  rw [hget, hget']
  cases hv : (Json.merged given).lookup name with
  | none =>
    rw [hv] at hrel
    rw [Json.eq_none_of_rel hrel]
    exact .inl rfl
  | some v =>
    rw [hv] at hrel
    obtain ⟨w, hw, hvw⟩ := Json.exists_of_rel_some hrel
    rw [hw]
    obtain rfl | ⟨hd, text, t, depth, rfl, ht, htw⟩ := hvw
    · exact .inl rfl
    · refine .inr ⟨hd, text, t, depth, w, rfl, ht, htw, fun x hx => ?_, rfl⟩
      exact hf _ hholds x (Json.mem_floatsOfMembers.2 ⟨(name, w), Json.mem_of_lookup hw, hx⟩)

theorem given?_congr {p q : Params} {name : String} (h : p.get? name = q.get? name) :
    p.given? name = q.given? name := by
  unfold given?
  rw [h]

theorem coordinate_congr {p q : Params} {name : String} (h : p.get? name = q.get? name) :
    p.coordinate name = q.coordinate name := p.coordinate_of_given (given?_congr h)

theorem dimension_congr {p q : Params} {name : String} (h : p.get? name = q.get? name) (most : Nat) :
    p.dimension name most = q.dimension name most := p.dimension_of_given (given?_congr h) most

/-- An array is written without blanks around it. -/
theorem firm_array (vs : List Json) : Text.Firm (Json.compactChars (.array vs)) := by
  rw [Json.compactChars_array]
  obtain ⟨cs, hcs⟩ := Json.writeAll_enclosed '[' ']' [] [] (vs.map Json.compactChars)
  rw [hcs]
  exact Text.firm_enclosed (by decide) (by decide) cs

theorem memberText_array (vs : List Json) : memberText (.array vs) = (Json.array vs).compact := rfl

theorem trimmed_array (vs : List Json) :
    Text.trimmed (memberText (.array vs)) = memberText (.array vs) := by
  rw [memberText_array, Json.compact, Text.trimmed, String.toList_ofList, (firm_array vs).trim]

theorem array_nonempty (vs : List Json) : memberText (.array vs) ≠ "" := by
  obtain ⟨c, cs, hcs, -⟩ := (firm_array vs).first
  rw [memberText_array, Json.compact, hcs]
  simp

/-- A document that was read of its string is read of its value. -/
theorem readWith_inlined {α : Type} {quoted inlined : String} {p q : Params}
    (h : Inlines quoted inlined) (hf : Json.FloatsReturn inlined) (hp : ofJson quoted = .ok p)
    (hq : ofJson inlined = .ok q) {name : String} {read : String → Except Drawing.Fault α}
    (hk : Drawing.TextKept read) {a : α} (ha : p.readWith name read = .ok a) :
    q.readWith name read = .ok a := by
  obtain ⟨raw, ⟨text, htext, rfl, hne⟩, hread⟩ := p.readWith_eq_ok.1 ha
  obtain hsame | ⟨-, text', t, depth, v, hpt, ht, hv, hx, hqt⟩ := get?_inlined h hf hp hq name
  · exact q.readWith_eq_ok.2 ⟨_, ⟨text, hsame ▸ htext, rfl, hne⟩, hread⟩
  · obtain rfl := Option.some.inj (hpt.symm.trans htext)
    have hparse : Tree.parse? (Text.trimmed text') = some t := by
      rw [Tree.parse?_eq_some, Text.trimmed, String.toList_ofList]
      exact ht.trim
    obtain ⟨⟨vs, rfl⟩, hwritten⟩ := hk hparse hv hx hread
    exact q.readWith_eq_ok.2
      ⟨_, ⟨_, hqt, (trimmed_array vs).symm, array_nonempty vs⟩, hwritten⟩

theorem styles_inlined {quoted inlined : String} {p q : Params} (h : Inlines quoted inlined)
    (hf : Json.FloatsReturn inlined) (hp : ofJson quoted = .ok p) (hq : ofJson inlined = .ok q)
    {styles : List Style} (hs : p.styles = .ok styles) : q.styles = .ok styles := by
  unfold Params.styles at hs ⊢
  obtain ⟨styles', hread, hs⟩ := bind_eq_ok.1 hs
  exact bind_eq_ok.2 ⟨styles', readWith_inlined h hf hp hq Drawing.readStyles_kept hread, hs⟩

theorem layers_inlined {quoted inlined : String} {p q : Params} (h : Inlines quoted inlined)
    (hf : Json.FloatsReturn inlined) (hp : ofJson quoted = .ok p) (hq : ofJson inlined = .ok q)
    {layers : List Layer} (hl : p.layers = .ok layers) : q.layers = .ok layers := by
  unfold Params.layers at hl ⊢
  obtain ⟨layers', hread, hl⟩ := bind_eq_ok.1 hl
  exact bind_eq_ok.2 ⟨layers', readWith_inlined h hf hp hq Drawing.readLayers_kept hread, hl⟩

/-- A job with its documents in place of their strings asks for what it asked for before. -/
theorem job_inlined {quoted inlined : String} {p q : Params} {s : Settings.Render} {j : Job}
    (h : Inlines quoted inlined) (hf : Json.FloatsReturn inlined) (hp : ofJson quoted = .ok p)
    (hj : p.job s = .ok j) (hq : ofJson inlined = .ok q) : q.job s = .ok j := by
  have same (name : String) (hn : name ∉ documents) : p.get? name = q.get? name := by
    obtain hsame | ⟨hd, -⟩ := get?_inlined h hf hp hq name
    · exact hsame
    · exact absurd hd hn
  have hgives := (p.job_eq_ok s j).1 hj
  have hextent : p.extent = q.extent := by
    unfold Params.extent
    rw [coordinate_congr (same "lon0" (by decide)), coordinate_congr (same "lat0" (by decide)),
      coordinate_congr (same "lon1" (by decide)), coordinate_congr (same "lat1" (by decide))]
  refine (q.job_eq_ok s j).2
    { styles := styles_inlined h hf hp hq hgives.styles
      zooms := readWith_inlined h hf hp hq Drawing.readZooms_kept hgives.zooms
      layers := layers_inlined h hf hp hq hgives.layers
      srs := ?_
      background := ?_
      srsChecked := hgives.srsChecked
      backgroundChecked := hgives.backgroundChecked
      width := ?_
      height := ?_
      extent := hextent ▸ hgives.extent }
  · rw [← given?_congr (same "srs" (by decide))]
    exact hgives.srs
  · rw [← given?_congr (same "bgcolor" (by decide))]
    exact hgives.background
  · rw [← dimension_congr (same "width" (by decide))]
    exact hgives.width
  · rw [← dimension_congr (same "height" (by decide))]
    exact hgives.height

/- A job with unknown and repeated members, an escape, a rule and a symbolizer as arrays, the greatest
index there is, and doubles. Two of its three documents are put in place. -/

def quotedJob : String :=
  "\x7b\"style\":\"[\x7b\\\"x\\\":[],\\\"name\\\":\\\"\\\\u0073\\\",\\\"x\\\":1,\\\"rules\\\":[[null,0,18446744073709551615,[[\\\"line\\\",\x7b\\\"a\\\":1,\\\"a\\\":0.5\x7d]]]]\x7d]\",\"zooms\":\" [0.5]\",\"layers\":\"[[\\\"l\\\",\\\"s\\\",\\\"x\\\",true,\x7b\\\"kind\\\":\\\"file\\\",\\\"type\\\":\\\"t\\\",\\\"path\\\":\\\"p\\\"\x7d]]\",\"width\":1,\"height\":1,\"lon0\":0,\"lat0\":0,\"lon1\":1,\"lat1\":1\x7d"

def inlinedJob : String :=
  "\x7b\"style\":[\x7b\"x\":[],\"name\":\"\\u0073\",\"x\":1,\"rules\":[[null,0,18446744073709551615,[[\"line\",\x7b\"a\":1,\"a\":0.5\x7d]]]]\x7d],\"zooms\": [0.5],\"layers\":\"[[\\\"l\\\",\\\"s\\\",\\\"x\\\",true,\x7b\\\"kind\\\":\\\"file\\\",\\\"type\\\":\\\"t\\\",\\\"path\\\":\\\"p\\\"\x7d]]\",\"width\":1,\"height\":1,\"lon0\":0,\"lat0\":0,\"lon1\":1,\"lat1\":1\x7d"

set_option maxRecDepth 4000 in
theorem job_inlined_sample : Inlines quotedJob inlinedJob ∧ Json.FloatsReturn inlinedJob ∧
    ∃ p q j, ofJson quotedJob = .ok p ∧ p.job .default = .ok j ∧ ofJson inlinedJob = .ok q ∧
      q.job .default = .ok j := by
  have hquoted : quotedJob = String.ofList _ := rfl
  have hinlined : inlinedJob = String.ofList _ := rfl
  have hinlines : Inlines quotedJob inlinedJob := by
    rw [inlines_iff, hquoted, hinlined, String.toList_ofList, String.toList_ofList]
    decide +kernel
  have hfloats : Json.FloatsReturn inlinedJob := by
    rw [Json.floatsReturn_iff, hinlined, Json.parse?_ofList]
    decide +kernel
  have hjob : (ofJson quotedJob >>= fun p => p.job .default).isOk = true := by
    rw [ofJson, hquoted, Json.parse?_ofList]
    decide +kernel
  have haccepted : (ofJson inlinedJob).isOk = true := by
    rw [ofJson, hinlined, Json.parse?_ofList]
    decide +kernel
  obtain ⟨j, hj⟩ := exists_of_isOk hjob
  obtain ⟨q, hq⟩ := exists_of_isOk haccepted
  obtain ⟨p, hp, hj⟩ := bind_eq_ok.1 hj
  exact ⟨hinlines, hfloats, p, q, j, hp, hj, hq, job_inlined hinlines hfloats hp hj hq⟩

end Params
end StyledMap.Request
