import StyledMap.Proofs.Drawing.Rewriting
import StyledMap.Proofs.Drawing.StyleTexts
import StyledMap.Proofs.Json.Trimming
import StyledMap.Proofs.Request.Validity

/-! Texts that describe layers. A field may have several names, a value several spellings, and a source
may have members nobody asks for; the reader gets every legal layer back from each of its texts. -/
namespace StyledMap
open Json (Tree)

/-- A word in small or capital letters. -/
def AnyCase (word s : String) : Prop :=
  List.Forall₂ (fun letter c => c = letter ∨ c = letter.toUpper) word.toList s.toList

instance (word s : String) : Decidable (AnyCase word s) :=
  inferInstanceAs (Decidable (List.Forall₂ _ _ _))

inductive Layer.WrittenStatus : Layer.Status → Option Tree → Prop where
  | flag (b : Bool) : WrittenStatus (if b then .on else .off) (some (.leaf (.bool b)))
  | on {t : Tree} {word s : String} (hw : word ∈ ["on", "enabled"]) (hs : AnyCase word s)
      (h : t.IsText s) : WrittenStatus .on (some t)
  | off {t : Tree} {word s : String} (hw : word ∈ ["off", "disabled"]) (hs : AnyCase word s)
      (h : t.IsText s) : WrittenStatus .off (some t)
  | missing : WrittenStatus .on none
  | null : WrittenStatus .on (some (.leaf .null))

/-- What a writer may choose freely: the blanks around a port, and the values of members that nobody
asks for. -/
structure Layer.Freedom where
  blank : Char → Prop
  extra : Tree → Prop

/-- All blanks, and all values but texts that a document cannot carry. -/
def Layer.Freedom.full : Layer.Freedom where
  blank c := Text.isBlank c = true
  extra t := ∀ s, t.IsText s → Xml.Legal s.toList

/-- The blanks that a document can carry, which leaves out the vertical tab and the form feed, and the
values that can be read. -/
def Layer.Freedom.kept : Layer.Freedom where
  blank c := Text.isBlank c = true ∧ Xml.isLegal c = true
  extra t := ∃ v, t.Means (Json.depthLimit - 3) v ∧ ∀ s, v = .string s → Xml.Legal s.toList

inductive Layer.WrittenPort (w : Layer.Freedom) : Nat → Option Tree → Prop where
  | number {n : Nat} {t : Tree} (h : t.IsWhole n) : WrittenPort w n (some t)
  | text {n : Nat} {t : Tree} {before digits after : List Char} (hb : ∀ c ∈ before, w.blank c)
      (ha : ∀ c ∈ after, w.blank c) (hd : Request.Side digits n)
      (h : t.IsText (String.ofList (before ++ (digits ++ after)))) : WrittenPort w n (some t)
  | missing : WrittenPort w Drawing.defaultPort none
  | null : WrittenPort w Drawing.defaultPort (some (.leaf .null))

/-- Members with their names and trees, none left out. -/
def given (members : List (String × Tree)) : List (String × Option Tree) :=
  members.map (fun m => (m.1, some m.2))

/-- The names that are asked for in a source of each kind. -/
def Layer.databaseNames : List String :=
  ["kind", "type", "host", "port", "dbname", "user", "password", "estimate_extent", "estimateExtent",
    "table"]

def Layer.fileNames : List String := ["kind", "type", "path", "file"]

def Layer.databaseMembers (extentName : String) (kind driver host dbname user table : Tree)
    (port password extent : Option Tree) : List (String × Option Tree) :=
  [("kind", some kind), ("type", some driver), ("host", some host), ("port", port),
    ("dbname", some dbname), ("user", some user), ("password", password), (extentName, extent),
    ("table", some table)]

def Layer.fileMembers (pathName : String) (kind driver path : Tree) : List (String × Option Tree) :=
  [("kind", some kind), ("type", some driver), (pathName, some path)]

inductive Layer.Source.Written (w : Layer.Freedom) : Layer.Source → Tree → Prop where
  | database {d : Layer.Database} {t kind driver host dbname user table : Tree}
      {port password extent : Option Tree} {extentName : String} {extras : List (String × Tree)}
      (hkind : kind.IsText "database") (hdriver : driver.IsText d.driver) (hhost : host.IsText d.host)
      (hport : WrittenPort w d.port port) (hdbname : dbname.IsText d.dbname)
      (huser : user.IsText d.user) (hpassword : Tree.Unless "" Tree.IsText d.password password)
      (hname : extentName ∈ ["estimate_extent", "estimateExtent"])
      (hextent : Tree.Unless false Tree.IsFlag d.estimateExtent extent) (htable : table.IsText d.table)
      (hextras : ∀ m ∈ extras, m.1 ∉ databaseNames ∧ w.extra m.2)
      (h : t.ObjectOf (databaseMembers extentName kind driver host dbname user table port password
        extent ++ given extras)) :
      Written w (.database d) t
  | file {f : Layer.File} {t kind driver path : Tree} {pathName : String}
      {extras : List (String × Tree)}
      (hkind : kind.IsText "file") (hdriver : driver.IsText f.driver)
      (hname : pathName ∈ ["path", "file"]) (hpath : path.IsText f.path)
      (hextras : ∀ m ∈ extras, m.1 ∉ fileNames ∧ w.extra m.2)
      (h : t.ObjectOf (fileMembers pathName kind driver path ++ given extras)) :
      Written w (.file f) t

inductive Layer.Written (w : Layer.Freedom) (l : Layer) (t : Tree) : Prop where
  | object {name style srs source : Tree} {status : Option Tree} {styleName : String}
      (hname : name.IsText l.name) (hstyleName : styleName ∈ ["style", "styleId", "style_id"])
      (hstyle : style.IsText l.style) (hsrs : srs.IsText l.srs)
      (hstatus : WrittenStatus l.status status) (hsource : l.source.Written w source)
      (h : t.ObjectOf [("name", some name), (styleName, some style), ("srs", some srs),
        ("status", status), ("source", some source)])

/-- The text is an array of these layers. -/
def Layer.WrittenAll (w : Layer.Freedom) (layers : List Layer) (text : String) : Prop :=
  ∃ t : Tree, t.Spells text.toList ∧ t.ListOf (Layer.Written w) layers

/-- Ports are numbers of 16 bits. -/
def Layer.Source.SmallPort : Layer.Source → Prop
  | .database d => d.port < 2 ^ 16
  | .file _ => True

instance (l : Layer) : Decidable l.Legal :=
  decidable_of_iff (Xml.Legal l.name.toList ∧ Xml.Legal l.style.toList ∧ Xml.Legal l.srs.toList ∧
      ∀ t ∈ l.source.texts, Xml.Legal t.toList)
    ⟨fun h => ⟨h.1, h.2.1, h.2.2.1, h.2.2.2⟩, fun h => ⟨h.name, h.style, h.srs, h.source⟩⟩

instance : (s : Layer.Source) → Decidable s.SmallPort
  | .database d => inferInstanceAs (Decidable (d.port < 2 ^ 16))
  | .file _ => inferInstanceAs (Decidable True)

/-! A text for all layers. Every member is written, in the order of the fields. -/

def Layer.Source.value : Layer.Source → Json
  | .database d => .object [("kind", .string "database"), ("type", .string d.driver),
      ("host", .string d.host), ("port", naturalValue d.port), ("dbname", .string d.dbname),
      ("user", .string d.user), ("password", .string d.password),
      ("estimate_extent", .bool d.estimateExtent), ("table", .string d.table)]
  | .file f => .object [("kind", .string "file"), ("type", .string f.driver), ("path", .string f.path)]

def Layer.value (l : Layer) : Json :=
  .object [("name", .string l.name), ("style", .string l.style), ("srs", .string l.srs),
    ("status", .string l.status.text), ("source", l.source.value)]

theorem Layer.Source.returns_value {s : Layer.Source} (small : s.SmallPort) : s.value.Returns 1 := by
  cases s with
  | database d =>
    have hport : (naturalValue d.port).Returns 0 :=
      .number (Json.Number.returns_natural (Nat.le_trans (Nat.le_of_lt small) (by decide)))
    exact .object (by simp) (by simp [Json.Returns.string, Json.Returns.bool, hport])
  | file f => exact .object (by simp) (by simp [Json.Returns.string])

theorem Layer.returns_value {l : Layer} (small : l.source.SmallPort) : l.value.Returns 2 :=
  .object (by simp) (by simp [Json.Returns.string, Layer.Source.returns_value small])

theorem anyCase_refl (word : String) : AnyCase word word := List.forall₂_same.2 (fun _ _ => .inl rfl)

theorem Layer.Source.written_value {w : Layer.Freedom} {s : Layer.Source} (small : s.SmallPort) :
    s.Written w s.value.tree := by
  have none (known : List String) :
      ∀ m ∈ ([] : List (String × Tree)), m.1 ∉ known ∧ w.extra m.2 := by simp
  cases s with
  | database d =>
    have hport : (naturalValue d.port).tree.IsWhole d.port :=
      Json.isWhole_tree (Nat.le_trans (Nat.le_of_lt small) (by decide))
    exact .database (Json.isText_tree _) (Json.isText_tree _) (Json.isText_tree _) (.number hport)
      (Json.isText_tree _) (Json.isText_tree _) (.given (Json.isText_tree _)) List.mem_cons_self
      (.given rfl) (Json.isText_tree _) (none _) (Json.objectOf_tree _)
  | file f =>
    exact .file (Json.isText_tree _) (Json.isText_tree _) List.mem_cons_self (Json.isText_tree _)
      (none _) (Json.objectOf_tree _)

theorem Layer.written_value {w : Layer.Freedom} {l : Layer} (small : l.source.SmallPort) :
    l.Written w l.value.tree := by
  have hstatus : WrittenStatus l.status (some (Json.string l.status.text).tree) := by
    cases l.status with
    | on => exact .on List.mem_cons_self (anyCase_refl "on") (Json.isText_tree _)
    | off => exact .off List.mem_cons_self (anyCase_refl "off") (Json.isText_tree _)
  exact .object (Json.isText_tree _) List.mem_cons_self (Json.isText_tree _) (Json.isText_tree _)
    hstatus (Layer.Source.written_value small) (Json.objectOf_tree _)

/-- The layers as a text. -/
def Layer.written (layers : List Layer) : String := (Json.array (layers.map Layer.value)).compact

theorem Layer.spells_written {layers : List Layer} (small : ∀ l ∈ layers, l.source.SmallPort) :
    (Json.array (layers.map Layer.value)).tree.Spells (Layer.written layers).toList := by
  have returns : (Json.array (layers.map Layer.value)).Returns 3 := by
    refine .array ?_
    simp only [List.forall_mem_map]
    exact fun l hl => Layer.returns_value (small l hl)
  rw [written, Json.compact, String.toList_ofList]
  exact returns.spells_compact

theorem Layer.exists_written {w : Layer.Freedom} {layers : List Layer}
    (small : ∀ l ∈ layers, l.source.SmallPort) : ∃ text, Layer.WrittenAll w layers text :=
  ⟨_, _, Layer.spells_written small, Json.listOf_tree (fun l hl => Layer.written_value (small l hl))⟩

namespace Drawing
open Json (Record Sole givenAs)
open Text (isBlank)

theorem lowerCase_of_anyCase {word s : String} (h : AnyCase word s)
    (hw : ∀ c ∈ word.toList, c.toLower = c ∧ c.toUpper.toLower = c) : lowerCase s = word := by
  have hmap : s.toList.map Char.toLower = word.toList := by
    unfold AnyCase at h
    generalize word.toList = letters at h hw
    generalize s.toList = cs at h
    induction h with
    | nil => rfl
    | @cons letter c letters cs hc _ ih =>
      rw [List.forall_mem_cons] at hw
      rw [List.map_cons, ih hw.2]
      obtain rfl | rfl := hc
      · rw [hw.1.1]
      · rw [hw.1.2]
  rw [lowerCase, hmap, String.ofList_toList]

theorem toUpper_capital : ∀ n ∈ List.range' 65 26, (Char.ofNat n).toLower.toUpper = Char.ofNat n := by
  decide

theorem eq_or_toUpper_of_toLower {c letter : Char} (h : c.toLower = letter) :
    c = letter ∨ c = letter.toUpper := by
  subst h
  by_cases hc : c.val ≥ 'A'.val ∧ c.val ≤ 'Z'.val
  · have hcapital : c.toNat ∈ List.range' 65 26 := by
      have hlow : 65 ≤ c.toNat := UInt32.le_iff_toNat_le.1 hc.1
      have hhigh : c.toNat ≤ 90 := UInt32.le_iff_toNat_le.1 hc.2
      rw [List.mem_range'_1]
      omega
    have hback := toUpper_capital c.toNat hcapital
    rw [Char.ofNat_toNat] at hback
    exact .inr hback.symm
  · have hsame : c.toLower = c := dif_neg hc
    exact .inl hsame.symm

theorem anyCase_lowerCase (s : String) : AnyCase (lowerCase s) s := by
  rw [AnyCase, lowerCase, String.toList_ofList, List.forall₂_map_left_iff, List.forall₂_same]
  exact fun c _ => eq_or_toUpper_of_toLower rfl

/-- A word counts in whichever case its letters are, if it is one of these in small letters. -/
theorem lowerCase_mem_iff {words : List String}
    (hw : ∀ word ∈ words, ∀ c ∈ word.toList, c.toLower = c ∧ c.toUpper.toLower = c) (s : String) :
    lowerCase s ∈ words ↔ ∃ word ∈ words, AnyCase word s := by
  constructor
  · exact fun h => ⟨lowerCase s, h, anyCase_lowerCase s⟩
  · rintro ⟨word, hword, hs⟩
    rwa [lowerCase_of_anyCase hs (hw word hword)]

theorem statusWords_small : ∀ word ∈ ["on", "enabled", "off", "disabled"],
    ∀ c ∈ word.toList, c.toLower = c ∧ c.toUpper.toLower = c := by decide

theorem offWords_not_on : ∀ word ∈ ["off", "disabled"], word ∉ ["on", "enabled"] := by decide

theorem status_word {s : String} {t : Tree} (h : t.IsText s) :
    t.isNull = false ∧ StatusEntry.ofTree? t = some (.word s) := by
  obtain ⟨ps, rfl, hs⟩ := h
  rw [StatusEntry.ofTree?, Json.text?_eq_some.2 hs]
  exact ⟨rfl, rfl⟩

theorem status_read (layer : String) {status : Layer.Status} {o : Option Tree} {r : Record}
    {f : Json.Field} (h : r.field? f = o) (hs : Layer.WrittenStatus status o) :
    ∃ e, r.optional? f StatusEntry.ofTree? = some e ∧ statusOf layer e = .ok status := by
  subst h
  unfold Record.optional?
  generalize r.field? f = o at hs
  cases hs with
  | flag b => exact ⟨_, rfl, rfl⟩
  | missing => exact ⟨_, rfl, rfl⟩
  | null => exact ⟨_, rfl, rfl⟩
  | @on t word s hw hs h =>
    have hlower := lowerCase_of_anyCase hs
      (statusWords_small word (List.mem_append_left ["off", "disabled"] hw))
    refine ⟨some (.word s), by simp [status_word h], ?_⟩
    rw [statusOf, hlower, if_pos hw]
  | @off t word s hw hs h =>
    have hlower := lowerCase_of_anyCase hs
      (statusWords_small word (List.mem_append_right ["on", "enabled"] hw))
    refine ⟨some (.word s), by simp [status_word h], ?_⟩
    rw [statusOf, hlower, if_neg (offWords_not_on word hw), if_pos hw]

/-- A number of digits has no blanks, and a document can carry it. -/
theorem side_chars {digits : List Char} {n : Nat} (h : Request.Side digits n) :
    digits ≠ [] ∧ ∀ c ∈ digits, isBlank c = false ∧ Xml.isLegal c = true := by
  have ofDigits {ds : List Nat} {cs : List Char} (h : Json.Digits ds cs) :
      ∀ c ∈ cs, isBlank c = false ∧ Xml.isLegal c = true := by
    intro c hc
    have hdigit := h.isDigit c hc
    have bounds := Json.bounds_of_isDigit hdigit
    refine ⟨Json.not_isBlank_of_isDigit hdigit, (Xml.isLegal_iff c).2 (.inr (.inl ?_))⟩
    omega
  cases h with
  | digits hne h =>
    obtain ⟨c, cs, rfl, -⟩ := h.exists_cons hne
    exact ⟨List.cons_ne_nil c cs, ofDigits h⟩
  | plus hne h => exact ⟨List.cons_ne_nil _ _, List.forall_mem_cons.2 ⟨by decide, ofDigits h⟩⟩

/-- Values of members that a source may have: texts among them can stand in a document. -/
def Carried (v : Json) : Prop := ∀ s, v = .string s → Xml.Legal s.toList

theorem carried_text {s : String} {t : Tree} (h : t.IsText s) (legal : Xml.Legal s.toList)
    (depth : Nat) : ∃ v, t.value? depth = some v ∧ Carried v := by
  refine ⟨.string s, h.value? depth, fun s' hs => ?_⟩
  cases hs
  exact legal

theorem carried_port {n : Nat} {o : Option Tree} (h : Layer.WrittenPort .kept n o) (hn : n < 2 ^ 16)
    (depth : Nat) : ∀ t ∈ o, ∃ v, t.value? depth = some v ∧ Carried v := by
  intro t ht
  cases ht
  cases h with
  | number h =>
    exact ⟨_, h.value? (Nat.le_trans (Nat.le_of_lt hn) (by decide)) depth, fun s hs => by cases hs⟩
  | @text _ _ before digits after hb ha hd h =>
    refine carried_text h ?_ depth
    rw [String.toList_ofList]
    intro c hc
    rw [List.mem_append, List.mem_append] at hc
    obtain hc | hc | hc := hc
    · exact (hb c hc).2
    · exact ((side_chars hd).2 c hc).2
    · exact (ha c hc).2
  | null => exact ⟨.null, rfl, fun s hs => by cases hs⟩

theorem carried_textOr {usual s : String} {o : Option Tree} (h : Tree.Unless usual Tree.IsText s o)
    (legal : Xml.Legal s.toList) (depth : Nat) :
    ∀ t ∈ o, ∃ v, t.value? depth = some v ∧ Carried v := by
  intro t ht
  cases ht
  cases h with
  | given h => exact carried_text h legal depth

theorem carried_flag {usual b : Bool} {o : Option Tree} (h : Tree.Unless usual Tree.IsFlag b o)
    (depth : Nat) : ∀ t ∈ o, ∃ v, t.value? depth = some v ∧ Carried v := by
  intro t ht
  cases ht
  cases h with
  | given h =>
    cases h
    exact ⟨.bool b, rfl, fun s hs => by cases hs⟩

theorem carried_given {known : List String} {extras : List (String × Tree)}
    (h : ∀ m ∈ extras, m.1 ∉ known ∧ Layer.Freedom.kept.extra m.2) :
    ∀ m ∈ given extras, ∀ t ∈ m.2, ∃ v, t.value? (Json.depthLimit - 3) = some v ∧ Carried v := by
  simp only [given, List.forall_mem_map, Option.mem_def, Option.some.injEq, forall_eq']
  intro m hm
  obtain ⟨-, v, hv, hlegal⟩ := h m hm
  exact ⟨v, Tree.value?_eq_some.2 hv, hlegal⟩

/-- What is found under a name that is not the kind's. -/
def Found (fields : List (String × Json)) (depth : Nat) (names : List String) (o : Option Tree) : Prop :=
  ∃ v, Option.Rel (fun t v => t.value? depth = some v) o v ∧ field? names fields = some v

section Fields
variable {fields : List (String × Json)} {depth : Nat} {names : List String}

theorem Found.text {t : Tree} {s : String} (h : Found fields depth names (some t)) (ht : t.IsText s) :
    textField? names fields = some s := by
  obtain ⟨_, ⟨hv⟩, hf⟩ := h
  obtain rfl := Option.some.inj (hv.symm.trans (ht.value? depth))
  rw [textField?, hf]

theorem Found.textOr {o : Option Tree} {usual s : String} (h : Found fields depth names o)
    (ho : Tree.Unless usual Tree.IsText s o) : textFieldOr? usual names fields = some s := by
  obtain ⟨_, hrel, hf⟩ := h
  cases ho with
  | missing =>
    cases hrel
    rw [textFieldOr?, hf]
  | given ht =>
    obtain ⟨hv⟩ := hrel
    obtain rfl := Option.some.inj (hv.symm.trans (ht.value? depth))
    rw [textFieldOr?, hf]

theorem Found.flag {o : Option Tree} {b : Bool} (h : Found fields depth names o)
    (ho : Tree.Unless false Tree.IsFlag b o) : flagField? names fields = some b := by
  obtain ⟨_, hrel, hf⟩ := h
  cases ho with
  | missing =>
    cases hrel
    rw [flagField?, hf]
  | given ht =>
    obtain ⟨hv⟩ := hrel
    cases ht
    cases hv
    rw [flagField?, hf]

theorem Found.port {o : Option Tree} {n : Nat} (h : Found fields depth ["port"] o)
    (ho : Layer.WrittenPort .kept n o) (hn : n < 2 ^ 16) (layer : String) :
    ∃ e, portField? fields = some e ∧ e.port layer = .ok n := by
  have hle : n ≤ Text.maxUnsigned16 := Nat.le_of_lt_succ hn
  obtain ⟨_, hrel, hf⟩ := h
  cases ho with
  | missing =>
    cases hrel
    exact ⟨.missing, by rw [portField?, hf], rfl⟩
  | null =>
    obtain ⟨hv⟩ := hrel
    cases hv
    exact ⟨.missing, by rw [portField?, hf], rfl⟩
  | number ht =>
    obtain ⟨hv⟩ := hrel
    obtain rfl := Option.some.inj
      (hv.symm.trans (ht.value? (Nat.le_trans hle (by decide)) depth))
    refine ⟨.number n, ?_, rfl⟩
    rw [portField?, hf]
    exact if_pos hle
  | @text _ t before digits after hb ha hd ht =>
    obtain ⟨hv⟩ := hrel
    obtain rfl := Option.some.inj (hv.symm.trans (ht.value? depth))
    refine ⟨.text _, by rw [portField?, hf], ?_⟩
    have hfirm : Text.Firm digits :=
      Text.firm_of_forall (side_chars hd).1 (fun c hc => ((side_chars hd).2 c hc).1)
    rw [PortEntry.port, String.toList_ofList,
      hfirm.trim_between (fun c hc => (hb c hc).1) (fun c hc => (ha c hc).1),
      Request.unsigned?_eq_some.2 ⟨hd, hle⟩]

end Fields

/-- Members that nobody asks for do not change what is asked for. -/
theorem sole_given {names known : List String} {members : List (String × Option Tree)}
    {extras : List (String × Tree)} {o : Option Tree} (hn : ∀ name ∈ names, name ∈ known)
    (he : ∀ m ∈ extras, m.1 ∉ known) (h : Sole names members o) :
    Sole names (members ++ given extras) o := by
  have none : (given extras).filter (fun m => names.contains m.1) = [] := by
    simp only [given, List.filter_eq_nil_iff, List.forall_mem_map, List.contains_iff_mem]
    exact fun m hm hmem => he m hm (hn m.1 hmem)
  rw [Json.sole_iff] at h ⊢
  rw [List.filter_append, none, List.append_nil, h]

theorem givenAs_others {names : List String} (h : "kind" ∉ names) (fields : List (String × Json)) :
    givenAs names (fields.filter (fun m => m.1 != "kind")) = givenAs names fields := by
  unfold givenAs
  rw [List.filter_filter]
  congr 1
  refine List.filter_congr (fun m _ => ?_)
  by_cases hm : m.1 ∈ names
  · have hne : m.1 ≠ "kind" := fun he => h (he ▸ hm)
    simp [hm, hne]
  · simp [hm]

theorem field?_toList {names : List String} {fields : List (String × Json)} {v : Option Json}
    (h : givenAs names fields = v.toList) : field? names fields = some v := by
  rw [field?, h]
  cases v <;> rfl

section Sources
variable {layer : String} {t kind driver : Tree} {extras : List (String × Tree)}

/-- A source is read from an object that gives its kind, and what is asked for is found in it. -/
theorem source_entry {known : List String} {members : List (String × Option Tree)} {word : String}
    (h : t.ObjectOf (members ++ given extras)) (hextras : ∀ m ∈ extras, m.1 ∉ known ∧ Layer.Freedom.kept.extra m.2)
    (hk : "kind" ∈ known) (hkind : Sole ["kind"] members (some kind)) (hword : kind.IsText word)
    (hv : ∀ m ∈ members, ∀ t ∈ m.2, ∃ v, t.value? (Json.depthLimit - 3) = some v ∧ Carried v) :
    ∃ fields, SourceEntry.ofTree? (Json.depthLimit - 2) t = some ⟨word, fields⟩ ∧
      (∀ layer, fields.forM (checkSourceField layer) = .ok ()) ∧
      ∀ names o, "kind" ∉ names → (∀ name ∈ names, name ∈ known) → Sole names members o →
        Found fields (Json.depthLimit - 3) names o := by
  have unknown : ∀ m ∈ extras, m.1 ∉ known := fun m hm => (hextras m hm).1
  obtain ⟨ms, _, rfl, -⟩ := id h
  obtain ⟨named, hnamed, hperm⟩ := Json.objectOf_iff.1 h
  obtain ⟨fields, hfields, hcarried, hgiven⟩ :=
    h.value? (List.forall_mem_append.2 ⟨hv, carried_given hextras⟩)
  refine ⟨fields.filter (fun m => m.1 != "kind"), ?_, fun layer => ?_, fun names o hn hknown ho => ?_⟩
  · have hone := (sole_given (by simpa using hk) unknown hkind).given hperm
    exact SourceEntry.ofTree?_eq_some.2 ⟨named, kind, word, fields, hnamed, hone,
      Tree.string?_eq_some.2 hword, hfields, rfl⟩
  · refine Steps.forM_eq_ok.2 (fun m hm => ?_)
    have hm := hcarried m (List.mem_of_mem_filter hm)
    unfold checkSourceField
    split
    · rename_i text htext
      exact checkText_eq_ok.2 (hm text htext)
    · rfl
  · obtain ⟨v, hrel, hv⟩ := hgiven names o (sole_given hknown unknown ho)
    exact ⟨v, hrel, field?_toList ((givenAs_others hn fields).trans hv)⟩

theorem database_read {d : Layer.Database} {host dbname user table : Tree}
    {port password extent : Option Tree} {extentName : String} (hkind : kind.IsText "database")
    (hdriver : driver.IsText d.driver) (hhost : host.IsText d.host)
    (hport : Layer.WrittenPort .kept d.port port) (hdbname : dbname.IsText d.dbname)
    (huser : user.IsText d.user) (hpassword : Tree.Unless "" Tree.IsText d.password password)
    (hname : extentName ∈ ["estimate_extent", "estimateExtent"])
    (hextent : Tree.Unless false Tree.IsFlag d.estimateExtent extent) (htable : table.IsText d.table)
    (hextras : ∀ m ∈ extras, m.1 ∉ Layer.databaseNames ∧ Layer.Freedom.kept.extra m.2)
    (h : t.ObjectOf (Layer.databaseMembers extentName kind driver host dbname user table port password
      extent ++ given extras))
    (legal : ∀ text ∈ (Layer.Source.database d).texts, Xml.Legal text.toList)
    (small : d.port < 2 ^ 16) :
    ∃ e, SourceEntry.ofTree? (Json.depthLimit - 2) t = some e ∧
      e.source layer = .ok (.database d) := by
  simp only [Layer.Source.texts, List.forall_mem_cons] at legal
  obtain ⟨ldriver, lhost, ldbname, luser, lpassword, ltable, -⟩ := legal
  let members := Layer.databaseMembers extentName kind driver host dbname user table port password extent
  have sole : Sole ["kind"] members (some kind) ∧ Sole ["type"] members (some driver) ∧
      Sole ["host"] members (some host) ∧ Sole ["port"] members port ∧
      Sole ["dbname"] members (some dbname) ∧ Sole ["user"] members (some user) ∧
      Sole ["password"] members password ∧
      Sole ["estimate_extent", "estimateExtent"] members extent ∧ Sole ["table"] members (some table) := by
    simp only [List.mem_cons, List.not_mem_nil, or_false] at hname
    obtain rfl | rfl := hname <;> simp [members, Layer.databaseMembers]
  have values : ∀ m ∈ members, ∀ t ∈ m.2,
      ∃ v, t.value? (Json.depthLimit - 3) = some v ∧ Carried v := by
    have text {s : String} {tree : Tree} (h : tree.IsText s) (legal : Xml.Legal s.toList) :
        ∀ t ∈ some tree, ∃ v, t.value? (Json.depthLimit - 3) = some v ∧ Carried v := by
      simpa using carried_text h legal _
    simp only [members, Layer.databaseMembers, List.forall_mem_cons]
    exact ⟨text hkind (by decide), text hdriver ldriver, text hhost lhost, carried_port hport small _,
      text hdbname ldbname, text huser luser, carried_textOr hpassword lpassword _,
      carried_flag hextent _, text htable ltable, by simp⟩
  obtain ⟨skind, stype, shost, sport, sdbname, suser, spassword, sextent, stable⟩ := sole
  obtain ⟨fields, he, hchecked, found⟩ := source_entry h hextras (by decide) skind hkind values
  obtain ⟨entry, hentry, hn⟩ := (found ["port"] _ (by decide) (by decide) sport).port hport small layer
  have hdatabase : database? fields = some (entry, fun n => ⟨d.driver, d.host, n, d.dbname, d.user,
      d.password, d.estimateExtent, d.table⟩) := by
    simp only [database?, hentry, (found ["type"] _ (by decide) (by decide) stype).text hdriver,
      (found ["host"] _ (by decide) (by decide) shost).text hhost,
      (found ["dbname"] _ (by decide) (by decide) sdbname).text hdbname,
      (found ["user"] _ (by decide) (by decide) suser).text huser,
      (found ["password"] _ (by decide) (by decide) spassword).textOr hpassword,
      (found ["estimate_extent", "estimateExtent"] _ (by decide) (by decide) sextent).flag hextent,
      (found ["table"] _ (by decide) (by decide) stable).text htable]
    rfl
  refine ⟨_, he, ?_⟩
  simp only [SourceEntry.source, hchecked layer, hdatabase, hn]
  rfl

theorem file_read {f : Layer.File} {path : Tree} {pathName : String}
    (hkind : kind.IsText "file") (hdriver : driver.IsText f.driver)
    (hname : pathName ∈ ["path", "file"]) (hpath : path.IsText f.path)
    (hextras : ∀ m ∈ extras, m.1 ∉ Layer.fileNames ∧ Layer.Freedom.kept.extra m.2)
    (h : t.ObjectOf (Layer.fileMembers pathName kind driver path ++ given extras))
    (legal : ∀ text ∈ (Layer.Source.file f).texts, Xml.Legal text.toList) :
    ∃ e, SourceEntry.ofTree? (Json.depthLimit - 2) t = some e ∧ e.source layer = .ok (.file f) := by
  simp only [Layer.Source.texts, List.forall_mem_cons] at legal
  obtain ⟨ldriver, lpath, -⟩ := legal
  let members := Layer.fileMembers pathName kind driver path
  have sole : Sole ["kind"] members (some kind) ∧ Sole ["type"] members (some driver) ∧
      Sole ["path", "file"] members (some path) := by
    simp only [List.mem_cons, List.not_mem_nil, or_false] at hname
    obtain rfl | rfl := hname <;> simp [members, Layer.fileMembers]
  have values : ∀ m ∈ members, ∀ t ∈ m.2,
      ∃ v, t.value? (Json.depthLimit - 3) = some v ∧ Carried v := by
    simp only [members, Layer.fileMembers, List.forall_mem_cons, Option.mem_def, Option.some.injEq,
      forall_eq']
    exact ⟨carried_text hkind (by decide) _, carried_text hdriver ldriver _,
      carried_text hpath lpath _, by simp⟩
  obtain ⟨skind, stype, spath⟩ := sole
  obtain ⟨fields, he, hchecked, found⟩ := source_entry h hextras (by decide) skind hkind values
  have hfile : file? fields = some f := by
    simp only [file?, (found ["type"] _ (by decide) (by decide) stype).text hdriver,
      (found ["path", "file"] _ (by decide) (by decide) spath).text hpath]
    rfl
  refine ⟨_, he, ?_⟩
  simp only [SourceEntry.source, hchecked layer, hfile]
  rfl

theorem source_read (layer : String) {source : Layer.Source} (h : source.Written .kept t)
    (legal : ∀ text ∈ source.texts, Xml.Legal text.toList) (small : source.SmallPort) :
    ∃ e, SourceEntry.ofTree? (Json.depthLimit - 2) t = some e ∧ e.source layer = .ok source := by
  cases h with
  | database hkind hdriver hhost hport hdbname huser hpassword hname hextent htable hextras h =>
    exact database_read hkind hdriver hhost hport hdbname huser hpassword hname hextent htable hextras h
      legal small
  | file hkind hdriver hname hpath hextras h =>
    exact file_read hkind hdriver hname hpath hextras h legal

end Sources

theorem layer_read {l : Layer} {t : Tree} (h : l.Written .kept t) (legal : l.Legal)
    (small : l.source.SmallPort) :
    ∃ e, LayerEntry.ofTree? (Json.depthLimit - 1) t = some e ∧ e.layer = .ok l := by
  cases h with
  | @object name style srs source status styleName hname hstyleName hstyle hsrs hstatus hsource h =>
    obtain ⟨r, hr, hfields⟩ := h.record [(⟨0, ["name"]⟩, some name),
      (⟨1, ["style", "styleId", "style_id"]⟩, some style), (⟨2, ["srs"]⟩, some srs),
      (⟨3, ["status"]⟩, status), (⟨4, ["source"]⟩, some source)] (by
        simp only [List.mem_cons, List.not_mem_nil, or_false] at hstyleName
        obtain rfl | rfl | rfl := hstyleName <;> simp)
    simp only [List.forall_mem_cons] at hfields
    obtain ⟨fname, fstyle, fsrs, fstatus, fsource, -⟩ := hfields
    obtain ⟨entry, hentry, hs⟩ := status_read l.name fstatus hstatus
    obtain ⟨e, he, hsource⟩ := source_read l.name hsource legal.source small
    refine ⟨⟨l.name, l.style, l.srs, entry, e⟩, ?_, ?_⟩
    · simp only [LayerEntry.ofTree?, Option.bind_eq_bind, Option.bind_eq_some_iff, Option.pure_def]
      exact ⟨r, hr, _, Record.required?_of fname (Tree.string?_eq_some.2 hname),
        _, Record.required?_of fstyle (Tree.string?_eq_some.2 hstyle),
        _, Record.required?_of fsrs (Tree.string?_eq_some.2 hsrs), entry, hentry,
        e, Record.required?_of fsource he, rfl⟩
    · have checked (field text : String) (h : Xml.Legal text.toList) : checkText field text = .ok () :=
        checkText_eq_ok.2 h
      simp only [LayerEntry.layer, checked _ _ legal.name, checked _ _ legal.style,
        checked _ _ legal.srs, hs, hsource]
      rfl

theorem readLayers_of_written {layers : List Layer} {text : String} (legal : ∀ l ∈ layers, l.Legal)
    (small : ∀ l ∈ layers, l.source.SmallPort) (h : Layer.WrittenAll .kept layers text) :
    readLayers text = .ok layers := by
  obtain ⟨t, ht, hlist⟩ := h
  obtain ⟨entries, hentries, hmake⟩ :=
    hlist.read (fun l hl t ht => layer_read ht (legal l hl) (small l hl))
  have hread : layerEntries? text = some entries := by
    rw [layerEntries?, Tree.parse?_eq_some.2 ht, Option.bind_some]
    exact hentries
  rw [readLayers, hread]
  exact hmake

/-- Every list of legal layers has a text, and whichever text it is, the reader gives the list. -/
theorem readLayers_reaches (layers : List Layer) (legal : ∀ l ∈ layers, l.Legal)
    (small : ∀ l ∈ layers, l.source.SmallPort) :
    (∃ text, Layer.WrittenAll .kept layers text) ∧
      ∀ text, Layer.WrittenAll .kept layers text → readLayers text = .ok layers :=
  ⟨Layer.exists_written small, fun _ => readLayers_of_written legal small⟩

def roads : Layer := ⟨"a", "s", "x", .on, .database ⟨"postgis", "h", 5432, "d", "u", "", true, "t"⟩⟩
def coast : Layer := ⟨"b", "s", "x", .off, .file ⟨"shape", "p"⟩⟩

/-- Other names, other orders, and members that nobody asks for. -/
def spelledLayersText : String :=
  "[\x7b\"source\":\x7b\"port\":\" +05432\\t\",\"tags\":true,\"type\":\"postgis\",\"host\":\"h\",
   \"tags\":null,\"kind\":\"database\",\"dbname\":\"d\",\"estimateExtent\":true,\"table\":\"t\",
   \"user\":\"u\"\x7d,\"styleId\":\"s\",\"status\":\"EnAbLeD\",\"srs\":\"x\",\"name\":\"a\"\x7d,
   \x7b\"name\":\"b\",\"style_id\":\"s\",\"srs\":\"x\",\"status\":false,
   \"source\":\x7b\"file\":\"p\",\"kind\":\"file\",\"type\":\"shape\"\x7d\x7d]"

open Json (pieces) in
theorem readLayers_reaches_spelled : readLayers spelledLayersText = .ok [roads, coast] := by
  refine (readLayers_reaches [roads, coast] (by decide) (by decide)).2 spelledLayersText ?_
  let word (s : String) : Tree := (Json.string s).tree
  let yes : Tree := .leaf (.bool true)
  let database : Tree := .object [(pieces "port", word " +05432\t"), (pieces "tags", yes),
    (pieces "type", word "postgis"), (pieces "host", word "h"), (pieces "tags", .leaf .null),
    (pieces "kind", word "database"), (pieces "dbname", word "d"), (pieces "estimateExtent", yes),
    (pieces "table", word "t"), (pieces "user", word "u")]
  let file : Tree := .object
    [(pieces "file", word "p"), (pieces "kind", word "file"), (pieces "type", word "shape")]
  let first : Tree := .object [(pieces "source", database), (pieces "styleId", word "s"),
    (pieces "status", word "EnAbLeD"), (pieces "srs", word "x"), (pieces "name", word "a")]
  let second : Tree := .object [(pieces "name", word "b"), (pieces "style_id", word "s"),
    (pieces "srs", word "x"), (pieces "status", .leaf (.bool false)), (pieces "source", file)]
  have hword (s : String) : (word s).IsText s := Json.isText_tree s
  have hdigits : Request.Side ['+', '0', '5', '4', '3', '2'] (Json.numberOf [0, 5, 4, 3, 2]) :=
    .plus (List.cons_ne_nil _ _) rfl
  have hport : Layer.WrittenPort .kept 5432 (some (word " +05432\t")) :=
    .text (List.forall_mem_singleton.2 (⟨rfl, rfl⟩ : Layer.Freedom.kept.blank ' '))
      (List.forall_mem_singleton.2 (⟨rfl, rfl⟩ : Layer.Freedom.kept.blank '\t')) hdigits (hword _)
  have hextras : ∀ m ∈ [("tags", yes), ("tags", .leaf .null)],
      m.1 ∉ Layer.databaseNames ∧ Layer.Freedom.kept.extra m.2 := by
    simp only [List.forall_mem_cons]
    exact ⟨⟨by decide, _, .leaf (.bool true), by simp⟩, ⟨by decide, _, .leaf .null, by simp⟩, by simp⟩
  have hdatabase : roads.source.Written .kept database :=
    .database (hword "database") (hword "postgis") (hword "h") hport (hword "d") (hword "u") .missing
      (by decide : "estimateExtent" ∈ _) (.given (rfl : yes.IsFlag true)) (hword "t") hextras (by decide +kernel)
  have hroads : roads.Written .kept first :=
    .object (hword "a") (by decide : "styleId" ∈ _) (hword "s") (hword "x")
      (.on (by decide : "enabled" ∈ _) (by decide) (hword "EnAbLeD")) hdatabase (by decide +kernel)
  have hnone : ∀ m ∈ ([] : List (String × Tree)),
      m.1 ∉ Layer.fileNames ∧ Layer.Freedom.kept.extra m.2 := by simp
  have hfile : coast.source.Written .kept file :=
    .file (hword "file") (hword "shape") (by decide : "file" ∈ _) (hword "p") hnone (by decide +kernel)
  have hcoast : coast.Written .kept second :=
    .object (hword "b") (by decide : "style_id" ∈ _) (hword "s") (hword "x") (.flag false) hfile (by decide +kernel)
  refine ⟨.array [first, second], Tree.parse?_eq_some.1 ?_, _, rfl, .cons hroads (.cons hcoast .nil)⟩
  rw [spelledLayersText, Tree.parse?_ofList]
  decide +kernel

/-! Neither freedom could be wider. -/

/-- What would be read if a writer could choose as freely as `w` says. -/
def Reaches (w : Layer.Freedom) : Prop :=
  ∀ layers text, (∀ l ∈ layers, l.Legal) → (∀ l ∈ layers, l.source.SmallPort) →
    Layer.WrittenAll w layers text → readLayers text = .ok layers

def formFeedText : String :=
  "[\x7b\"name\":\"a\",\"style\":\"s\",\"srs\":\"x\",\"source\":\x7b\"kind\":\"database\",
   \"type\":\"postgis\",\"host\":\"h\",\"port\":\"\\f5432\",\"dbname\":\"d\",\"user\":\"u\",
   \"estimate_extent\":true,\"table\":\"t\"\x7d\x7d]"

def halfPairText : String :=
  "[\x7b\"name\":\"b\",\"style\":\"s\",\"srs\":\"x\",\"status\":\"off\",
   \"source\":\x7b\"kind\":\"file\",\"type\":\"shape\",\"path\":\"p\",\"tags\":[\"\\ud800\"]\x7d\x7d]"

open Json (pieces) in
/-- A form feed is trimmed from a port, but all texts of a source are checked before. -/
theorem not_reaches_of_formFeed {w : Layer.Freedom} (h : w.blank '\x0c') : ¬ Reaches w := by
  intro reaches
  let word (s : String) : Tree := (Json.string s).tree
  have hword (s : String) : (word s).IsText s := Json.isText_tree s
  let yes : Tree := .leaf (.bool true)
  let database : Tree := .object [(pieces "kind", word "database"), (pieces "type", word "postgis"),
    (pieces "host", word "h"), (pieces "port", word "\x0c5432"), (pieces "dbname", word "d"),
    (pieces "user", word "u"), (pieces "estimate_extent", yes), (pieces "table", word "t")]
  let layer : Tree := .object [(pieces "name", word "a"), (pieces "style", word "s"),
    (pieces "srs", word "x"), (pieces "source", database)]
  have hdigits : Request.Side ['5', '4', '3', '2'] (Json.numberOf [5, 4, 3, 2]) :=
    .digits (List.cons_ne_nil _ _) rfl
  have hport : Layer.WrittenPort w 5432 (some (word "\x0c5432")) :=
    .text (List.forall_mem_singleton.2 h) (List.forall_mem_nil _) hdigits (hword _)
  have hnone : ∀ m ∈ ([] : List (String × Tree)), m.1 ∉ Layer.databaseNames ∧ w.extra m.2 := by simp
  have hdatabase : roads.source.Written w database :=
    .database (hword "database") (hword "postgis") (hword "h") hport (hword "d") (hword "u") .missing
      (by decide : "estimate_extent" ∈ _) (.given (rfl : yes.IsFlag true)) (hword "t") hnone
      (by decide +kernel)
  have hlayer : roads.Written w layer :=
    .object (hword "a") (by decide : "style" ∈ _) (hword "s") (hword "x") .missing hdatabase
      (by decide +kernel)
  have hparse : Tree.parse? formFeedText = some (.array [layer]) := by
    rw [formFeedText, Tree.parse?_ofList]
    decide +kernel
  have hread := reaches [roads] formFeedText (by decide) (by decide)
    ⟨_, Tree.parse?_eq_some.1 hparse, _, rfl, .cons hlayer .nil⟩
  have hrefused : (readLayers formFeedText).isOk = false := by
    rw [readLayers, layerEntries?, hparse]
    decide +kernel
  rw [hread] at hrefused
  cases hrefused

open Json (pieces) in
/-- A value that nobody asks for is still read. -/
theorem not_reaches_of_halfPair {w : Layer.Freedom}
    (h : w.extra (.array [.leaf (.string [.unit 0xD800])])) : ¬ Reaches w := by
  intro reaches
  let word (s : String) : Tree := (Json.string s).tree
  have hword (s : String) : (word s).IsText s := Json.isText_tree s
  let tags : Tree := .array [.leaf (.string [.unit 0xD800])]
  let file : Tree := .object [(pieces "kind", word "file"), (pieces "type", word "shape"),
    (pieces "path", word "p"), (pieces "tags", tags)]
  let layer : Tree := .object [(pieces "name", word "b"), (pieces "style", word "s"),
    (pieces "srs", word "x"), (pieces "status", word "off"), (pieces "source", file)]
  have hextras : ∀ m ∈ [("tags", tags)], m.1 ∉ Layer.fileNames ∧ w.extra m.2 :=
    List.forall_mem_singleton.2 ⟨by decide, h⟩
  have hfile : coast.source.Written w file :=
    .file (hword "file") (hword "shape") (by decide : "path" ∈ _) (hword "p") hextras
      (by decide +kernel)
  have hlayer : coast.Written w layer :=
    .object (hword "b") (by decide : "style" ∈ _) (hword "s") (hword "x")
      (.off (by decide : "off" ∈ _) (by decide) (hword "off")) hfile (by decide +kernel)
  have hparse : Tree.parse? halfPairText = some (.array [layer]) := by
    rw [halfPairText, Tree.parse?_ofList]
    decide +kernel
  have hread := reaches [coast] halfPairText (by decide) (by decide)
    ⟨_, Tree.parse?_eq_some.1 hparse, _, rfl, .cons hlayer .nil⟩
  have hrefused : (readLayers halfPairText).isOk = false := by
    rw [readLayers, layerEntries?, hparse]
    decide +kernel
  rw [hread] at hrefused
  cases hrefused

theorem full_not_reaches : ¬ Reaches .full ∧
    ¬ Reaches ⟨Layer.Freedom.full.blank, Layer.Freedom.kept.extra⟩ ∧
    ¬ Reaches ⟨Layer.Freedom.kept.blank, Layer.Freedom.full.extra⟩ := by
  have blank : Layer.Freedom.full.blank '\x0c' := rfl
  have notText : Layer.Freedom.full.extra (.array [.leaf (.string [.unit 0xD800])]) := by
    intro s hs
    obtain ⟨ps, hps, -⟩ := hs
    cases hps
  exact ⟨not_reaches_of_formFeed blank, not_reaches_of_formFeed blank,
    not_reaches_of_halfPair notText⟩

end Drawing
end StyledMap
