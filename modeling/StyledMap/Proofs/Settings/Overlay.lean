import StyledMap.Proofs.Drawing.LayerTexts
import StyledMap.Proofs.Ini.Edits
import StyledMap.Proofs.Request.Validity
import StyledMap.Proofs.Settings.Loaded

/-! Settings from a file, key by key. Each field is what its own key says, or its default; the file is
refused exactly if one of the checked keys has a value of no use, and of these the first one in the order
of the checks is named. Nothing else that is in the file counts. -/
namespace StyledMap.Settings
open Steps
open Text (Firm)

/-- What can be set. -/
inductive Key where
  | library
  | resources
  | rowOrder
  | reentrant
  | srs
  | background
  | maxWidth
  | maxHeight
  | timeout
  | log
  deriving Repr, DecidableEq

/-- The section that a key stands in. -/
def Key.group : Key → String
  | .library | .resources | .rowOrder | .reentrant => "engine"
  | .srs | .background | .maxWidth | .maxHeight | .timeout => "render"
  | .log => "logging"

def Key.name : Key → String
  | .library => "library"
  | .resources => "resource_dir"
  | .rowOrder => "row_order"
  | .reentrant => "reentrant"
  | .srs => "srs"
  | .background => "background_color"
  | .maxWidth => "max_width"
  | .maxHeight => "max_height"
  | .timeout => "timeout"
  | .log => "file"

/-- The texts that a file gives for the keys. -/
def given (f : Ini) (k : Key) : Option String := f.get? k.group k.name

/-- The name of a section and of a key in it. -/
def Known (group name : String) : Prop := ∃ k : Key, k.group = group ∧ k.name = name

/-! What the texts mean. -/

/-- One of these words with its letters in any case, apart from blanks around it. -/
def Says (words : List String) (v : String) : Prop := ∃ word ∈ words, AnyCase word (Text.trimmed v)

def orderWords : RowOrder → List String
  | .topDown => ["top-down", "topdown"]
  | .bottomUp => ["bottom-up", "bottomup"]

def switchWords : Bool → List String
  | true => ["true", "yes", "1", "on"]
  | false => ["false", "no", "0", "off"]

/-- The digits of a number from one to `limit`, behind at most one plus sign, apart from blanks around
them. -/
def Counts (limit : Nat) (v : String) (n : Nat) : Prop :=
  Request.Side (Text.trim v.toList) n ∧ 1 ≤ n ∧ n ≤ limit

/-- The path that a text stands for. What follows `~/` is a path below the home directory, unless it
starts with a slash of its own: then the home directory is dropped. Where no home directory is known every
text is spelled out. -/
inductive Placed : Option Path → String → Path → Prop where
  | home {home : Path} {rest : String} (h : (⟨rest⟩ : Path).isAbsolute = false) :
      Placed (some home) ("~/" ++ rest) (home.join ⟨rest⟩)
  | root {home : Path} {rest : String} (h : (⟨rest⟩ : Path).isAbsolute = true) :
      Placed (some home) ("~/" ++ rest) ⟨rest⟩
  | spelled {home : Option Path} {s : String} (h : ∀ rest, s ≠ "~/" ++ rest) : Placed home s ⟨s⟩
  | homeless {s : String} : Placed none s ⟨s⟩

/-- Of a text of free form the blanks around it do not count. -/
inductive Filled {α : Type} (blank : α) (Means : String → α → Prop) (v : String) : α → Prop where
  | text {a : α} (hne : Text.trimmed v ≠ "") (h : Means (Text.trimmed v) a) : Filled blank Means v a
  | blank (h : Text.trimmed v = "") : Filled blank Means v blank

/-- A field has what the given text means, and its default if none is given. -/
inductive Field {α : Type} (default : α) (Means : String → α → Prop) : Option String → α → Prop where
  | given {v : String} {a : α} (h : Means v a) : Field default Means (some v) a
  | missing : Field default Means none default

/-- Settings that are as these texts say, each field as the text of its own key. -/
structure Overlaid (home : Option Path) (texts : Key → Option String) (c : Settings) : Prop where
  library : Field none (Filled none fun t p => ∃ q, p = some q ∧ Placed home t q) (texts .library)
    c.engine.library
  resources : Field Engine.default.resources (Filled Engine.default.resources (Placed home))
    (texts .resources) c.engine.resources
  rowOrder : Field Engine.default.rowOrder (fun v o => Says (orderWords o) v) (texts .rowOrder)
    c.engine.rowOrder
  reentrant : Field Engine.default.reentrant (fun v b => Says (switchWords b) v) (texts .reentrant)
    c.engine.reentrant
  srs : Field defaultSrs (Filled defaultSrs fun t s => s = t) (texts .srs) c.render.srs
  background : Field defaultBackground (Filled defaultBackground fun t s => s = t) (texts .background)
    c.render.background
  maxWidth : Field defaultDimension (Counts (2 ^ 32 - 1)) (texts .maxWidth) c.render.maxWidth
  maxHeight : Field defaultDimension (Counts (2 ^ 32 - 1)) (texts .maxHeight) c.render.maxHeight
  timeout : Field defaultTimeout (Counts (2 ^ 64 - 1)) (texts .timeout) c.render.timeout
  log : Field (default home).log (Filled (default home).log (Placed home)) (texts .log) c.log

/-- A key whose text has to be of use, and what is said of one that is not. -/
structure Check where
  key : Key
  Usable : String → Prop
  reason : String

/-- In the order in which they are made. -/
def checks : List Check :=
  [⟨.rowOrder, fun v => ∃ o, Says (orderWords o) v, "must be 'top-down' or 'bottom-up'"⟩,
    ⟨.reentrant, fun v => ∃ b, Says (switchWords b) v, "must be true or false"⟩,
    ⟨.maxWidth, fun v => ∃ n, Counts (2 ^ 32 - 1) v n, positiveReason "pixels"⟩,
    ⟨.maxHeight, fun v => ∃ n, Counts (2 ^ 32 - 1) v n, positiveReason "pixels"⟩,
    ⟨.timeout, fun v => ∃ n, Counts (2 ^ 64 - 1) v n, positiveReason "seconds"⟩]

def Check.Passes (texts : Key → Option String) (k : Check) : Prop :=
  ∀ v, texts k.key = some v → k.Usable v

/-- The text is named as it was given. -/
inductive Check.Refuses (texts : Key → Option String) (k : Check) : Fault → Prop where
  | invalid {v : String} (h : texts k.key = some v) (hv : ¬ k.Usable v) :
      Refuses texts k (.invalid k.key.group k.key.name v k.reason)

/-- What all settings have that a file can lead to. -/
structure Working (c : Settings) : Prop where
  maxWidth : 1 ≤ c.render.maxWidth
  maxHeight : 1 ≤ c.render.maxHeight
  timeout : 1 ≤ c.render.timeout
  srs : Firm c.render.srs.toList
  background : Firm c.render.background.toList

/-! What the readers of single values find. -/

/-- Words that are read without regard to letter case are given in small letters. -/
theorem says_iff {words : List String}
    (hw : ∀ word ∈ words, ∀ c ∈ word.toList, c.toLower = c ∧ c.toUpper.toLower = c) (v : String) :
    Says words v ↔ String.ofList ((Text.trim v.toList).map Char.toLower) ∈ words := by
  rw [Says, ← Drawing.lowerCase_mem_iff hw, Drawing.lowerCase, Text.trimmed, String.toList_ofList]

theorem orderWords_small : ∀ o, ∀ word ∈ orderWords o, ∀ c ∈ word.toList,
    c.toLower = c ∧ c.toUpper.toLower = c := by
  intro o
  cases o <;> decide

theorem switchWords_small : ∀ b, ∀ word ∈ switchWords b, ∀ c ∈ word.toList,
    c.toLower = c ∧ c.toUpper.toLower = c := by decide

/-- Of two things with words of their own, a word stands for the one whose it is. -/
theorem byWord_eq_some {α : Type} {words : α → List String} {a b c : α} (hall : c = a ∨ c = b)
    (hown : ∀ w ∈ words b, w ∉ words a) {w : String} :
    (if w ∈ words a then some a else if w ∈ words b then some b else none) = some c ↔ w ∈ words c := by
  by_cases ha : w ∈ words a
  · have hb : w ∉ words b := fun hb => hown w hb ha
    obtain rfl | rfl := hall
    · simp [ha]
    · have hne : a ≠ c := fun he => hb (he ▸ ha)
      simp [ha, hb, hne]
  · by_cases hb : w ∈ words b
    · obtain rfl | rfl := hall
      · have hne : b ≠ c := fun he => ha (he ▸ hb)
        simp [ha, hb, hne]
      · simp [ha, hb]
    · obtain rfl | rfl := hall <;> simp [ha, hb]

theorem ofText?_eq_some {v : String} {o : RowOrder} :
    RowOrder.ofText? v = some o ↔ Says (orderWords o) v := by
  have hall : o = .topDown ∨ o = .bottomUp := by
    cases o with
    | topDown => exact .inl rfl
    | bottomUp => exact .inr rfl
  rw [says_iff (orderWords_small o), ← byWord_eq_some hall (by decide)]
  simp only [RowOrder.ofText?, orderWords, List.mem_cons, List.not_mem_nil, or_false,
    ← String.toList_inj, String.toList_ofList]

theorem switch?_eq_some {v : String} {b : Bool} : switch? v = some b ↔ Says (switchWords b) v := by
  have hall : b = true ∨ b = false := by
    cases b with
    | true => exact .inl rfl
    | false => exact .inr rfl
  rw [says_iff (switchWords_small b), ← byWord_eq_some hall (by decide)]
  simp only [switch?, switchWords, List.mem_cons, List.not_mem_nil, or_false]

theorem positive?_eq_some {limit : Nat} {v : String} {n : Nat} :
    positive? limit v = some n ↔ Counts limit v n := by
  unfold positive? Counts
  constructor
  · intro h
    split at h
    · rename_i k hk
      obtain rfl := Option.some.inj h
      obtain ⟨hside, hfits⟩ := Request.unsigned?_eq_some.1 hk
      exact ⟨hside, by omega, hfits⟩
    · cases h
  · rintro ⟨hside, hpos, hfits⟩
    obtain ⟨k, rfl⟩ := Nat.exists_eq_add_of_le' hpos
    rw [Request.unsigned?_eq_some.2 ⟨hside, hfits⟩]

theorem tilde_iff {s : String} {rest : List Char} :
    s.toList = '~' :: '/' :: rest ↔ s = "~/" ++ String.ofList rest := by
  rw [← String.toList_inj]
  simp

theorem placed_expand (home : Option Path) (s : String) : Placed home s (expand home s) := by
  cases home with
  | none => exact .homeless
  | some home =>
    by_cases h : ∃ rest, s = "~/" ++ rest
    · obtain ⟨rest, rfl⟩ := h
      rw [expand_tilde]
      cases ha : (⟨rest⟩ : Path).isAbsolute with
      | false => exact .home ha
      | true =>
        rw [Path.join, if_pos ha]
        exact .root ha
    · rw [expand_of_ne (fun rest hs => h ⟨_, tilde_iff.1 hs⟩)]
      exact .spelled (fun rest hs => h ⟨rest, hs⟩)

theorem expand_eq_iff {home : Option Path} {p : Path} {s : String} :
    expand home s = p ↔ Placed home s p := by
  constructor
  · rintro rfl
    exact placed_expand home s
  · intro h
    cases h with
    | home h => exact expand_tilde _ _
    | root h => rw [expand_tilde, Path.join, if_pos h]
    | spelled h => exact expand_of_ne (fun rest hs => h _ (tilde_iff.1 hs)) home
    | homeless => rfl

section fields
variable {α : Type} {d a : α} {Means : String → α → Prop}

theorem field_none : Field d Means none a ↔ d = a := by
  constructor
  · intro h
    cases h
    rfl
  · rintro rfl
    exact .missing

theorem field_some {v : String} : Field d Means (some v) a ↔ Means v a := by
  constructor
  · intro h
    cases h with
    | given h => exact h
  · exact .given

theorem filled_of_blank {v : String} (hv : Text.trimmed v = "") : Filled d Means v a ↔ d = a := by
  constructor
  · intro h
    cases h with
    | text hne _ => exact absurd hv hne
    | blank _ => rfl
  · rintro rfl
    exact .blank hv

theorem filled_of_ne {v : String} (hv : Text.trimmed v ≠ "") :
    Filled d Means v a ↔ Means (Text.trimmed v) a := by
  constructor
  · intro h
    cases h with
    | text _ h => exact h
    | blank h => exact absurd h hv
  · exact .text hv

/-- A text of free form is read if something is left of it without the blanks around it. -/
theorem filled_iff {read : String → α} (hread : ∀ t a, read t = a ↔ Means t a) (o : Option String) :
    ((o.bind Text.nonblank?).map read).getD d = a ↔ Field d (Filled d Means) o a := by
  cases o with
  | none => exact field_none.symm
  | some v =>
    rw [field_some, Option.bind_some, Text.nonblank?]
    by_cases hv : Text.trimmed v = ""
    · rw [if_pos hv, filled_of_blank hv]
      rfl
    · rw [if_neg hv, filled_of_ne hv]
      exact hread _ a

end fields

theorem textOr_iff {d s : String} {o : Option String} :
    textOr d o = s ↔ Field d (Filled d fun t s => s = t) o s := by
  have hread : ∀ t s : String, id t = s ↔ s = t := fun _ _ => eq_comm
  rw [← filled_iff hread, Option.map_id]
  rfl

section paths
variable {home : Option Path} {o : Option String}

theorem pathOr_iff {d p : Path} : pathOr home d o = p ↔ Field d (Filled d (Placed home)) o p :=
  filled_iff (fun _ _ => expand_eq_iff) o

theorem library_iff {p : Option Path} : (o.bind Text.nonblank?).map (expand home) = p ↔
    Field none (Filled none fun t p => ∃ q, p = some q ∧ Placed home t q) o p := by
  have hread : ∀ t (p : Option Path), some (expand home t) = p ↔ ∃ q, p = some q ∧ Placed home t q := by
    intro t p
    constructor
    · rintro rfl
      exact ⟨_, rfl, expand_eq_iff.1 rfl⟩
    · rintro ⟨q, rfl, hq⟩
      rw [expand_eq_iff.2 hq]
  rw [← filled_iff hread]
  cases o.bind Text.nonblank? <;> rfl

end paths

/-! The steps of reading. -/

section steps
variable {α : Type} {f : Ini} {read : String → Option α} {Means : String → α → Prop}
  (hread : ∀ v a, read v = some a ↔ Means v a) {k : Key} {reason : String} {d : α}
include hread

theorem valueOr_eq_ok {a : α} :
    valueOr f k.group k.name read reason d = .ok a ↔ Field d Means (given f k) a := by
  unfold valueOr given
  cases f.get? k.group k.name with
  | none => rw [field_none, Except.ok.injEq]
  | some v =>
    rw [field_some, ← hread]
    cases hv : read v <;> simp [hv]

/-- A step is passed if the text of its key means something. -/
theorem exists_valueOr : (∃ a, valueOr f k.group k.name read reason d = .ok a) ↔
    Check.Passes (given f) ⟨k, fun v => ∃ a, Means v a, reason⟩ := by
  simp only [valueOr_eq_ok hread, Check.Passes]
  cases given f k with
  | none => simp [field_none]
  | some v => simp [field_some]

theorem valueOr_eq_error {e : Fault} : valueOr f k.group k.name read reason d = .error e ↔
    Check.Refuses (given f) ⟨k, fun v => ∃ a, Means v a, reason⟩ e := by
  constructor
  · intro h
    unfold valueOr at h
    split at h
    · cases h
    · rename_i v hv
      split at h
      · cases h
      · rename_i hnone
        cases h
        refine .invalid hv (fun ⟨a, ha⟩ => ?_)
        rw [(hread v a).2 ha] at hnone
        cases hnone
  · intro h
    cases h with
    | @invalid v hv hno =>
      have hnone : read v = none :=
        Option.eq_none_iff_forall_ne_some.2 (fun a ha => hno ⟨a, (hread v a).1 ha⟩)
      rw [given] at hv
      simp only [valueOr, hv, hnone]

/-- Steps that start with this one fail as it does, or as the others do once it is passed. -/
theorem valueOr_bind_eq_error {β : Type} {next : α → Except Fault β} {e : Fault} {More : Prop}
    (hnext : ∀ a, next a = .error e ↔ More) :
    (valueOr f k.group k.name read reason d >>= next) = .error e ↔
      Check.Refuses (given f) ⟨k, fun v => ∃ a, Means v a, reason⟩ e ∨
        Check.Passes (given f) ⟨k, fun v => ∃ a, Means v a, reason⟩ ∧ More := by
  simp only [bind_eq_error, hnext, exists_and_right, exists_valueOr hread, valueOr_eq_error hread]

end steps

section file
variable {home : Option Path} {f g : Ini}

theorem ofIni_eq_error {e : Fault} : ofIni home f = .error e ↔
    ∃ before k after, checks = before ++ k :: after ∧ (∀ j ∈ before, j.Passes (given f)) ∧
      k.Refuses (given f) e := by
  have hdone : (∃ before k after, ([] : List Check) = before ++ k :: after ∧
      (∀ j ∈ before, j.Passes (given f)) ∧ k.Refuses (given f) e) ↔ False := by simp
  simp only [checks, exists_first_cons, hdone]
  exact valueOr_bind_eq_error (fun _ _ => ofText?_eq_some) (k := .rowOrder) fun _ =>
    valueOr_bind_eq_error (fun _ _ => switch?_eq_some) (k := .reentrant) fun _ =>
    valueOr_bind_eq_error (fun _ _ => positive?_eq_some) (k := .maxWidth) fun _ =>
    valueOr_bind_eq_error (fun _ _ => positive?_eq_some) (k := .maxHeight) fun _ =>
    valueOr_bind_eq_error (fun _ _ => positive?_eq_some) (k := .timeout) fun _ => by
      simp [pure, Except.pure]

theorem ofIni_eq_ok {c : Settings} : ofIni home f = .ok c ↔ Overlaid home (given f) c := by
  simp only [ofIni, bind_eq_ok, pure_eq_ok]
  constructor
  · rintro ⟨order, horder, reentrant, hreentrant, width, hwidth, height, hheight, timeout, htimeout, rfl⟩
    exact {
      library := library_iff.1 rfl
      resources := pathOr_iff.1 rfl
      rowOrder := (valueOr_eq_ok fun _ _ => ofText?_eq_some).1 horder
      reentrant := (valueOr_eq_ok fun _ _ => switch?_eq_some).1 hreentrant
      srs := textOr_iff.1 rfl
      background := textOr_iff.1 rfl
      maxWidth := (valueOr_eq_ok fun _ _ => positive?_eq_some).1 hwidth
      maxHeight := (valueOr_eq_ok fun _ _ => positive?_eq_some).1 hheight
      timeout := (valueOr_eq_ok fun _ _ => positive?_eq_some).1 htimeout
      log := pathOr_iff.1 rfl }
  · intro h
    refine ⟨_, (valueOr_eq_ok fun _ _ => ofText?_eq_some).2 h.rowOrder, _,
      (valueOr_eq_ok fun _ _ => switch?_eq_some).2 h.reentrant, _,
      (valueOr_eq_ok fun _ _ => positive?_eq_some).2 h.maxWidth, _,
      (valueOr_eq_ok fun _ _ => positive?_eq_some).2 h.maxHeight, _,
      (valueOr_eq_ok fun _ _ => positive?_eq_some).2 h.timeout, ?_⟩
    have hlibrary := library_iff.2 h.library
    have hresources := pathOr_iff.2 h.resources
    have hsrs := textOr_iff.2 h.srs
    have hbackground := textOr_iff.2 h.background
    have hlog := pathOr_iff.2 h.log
    simp only [given, Key.group, Key.name] at hlibrary hresources hsrs hbackground hlog
    rw [hlibrary, hresources, hsrs, hbackground, hlog]

theorem exists_ofIni : (∃ c, ofIni home f = .ok c) ↔ ∀ k ∈ checks, k.Passes (given f) := by
  constructor
  · rintro ⟨c, h⟩
    simp only [ofIni, bind_eq_ok] at h
    obtain ⟨order, horder, reentrant, hreentrant, width, hwidth, height, hheight, timeout, htimeout, -⟩ := h
    simp only [checks, List.forall_mem_cons]
    exact ⟨(exists_valueOr fun _ _ => ofText?_eq_some).1 ⟨order, horder⟩,
      (exists_valueOr fun _ _ => switch?_eq_some).1 ⟨reentrant, hreentrant⟩,
      (exists_valueOr fun _ _ => positive?_eq_some).1 ⟨width, hwidth⟩,
      (exists_valueOr fun _ _ => positive?_eq_some).1 ⟨height, hheight⟩,
      (exists_valueOr fun _ _ => positive?_eq_some).1 ⟨timeout, htimeout⟩, List.forall_mem_nil _⟩
  · intro h
    cases hf : ofIni home f with
    | ok c => exact ⟨c, rfl⟩
    | error e =>
      obtain ⟨before, k, after, hchecks, -, hrefuses⟩ := ofIni_eq_error.1 hf
      have hk : k ∈ checks := by
        rw [hchecks]
        exact List.mem_append_right before List.mem_cons_self
      cases hrefuses with
      | invalid hv hno => exact absurd (h k hk _ hv) hno

theorem ofIni_congr (h : given f = given g) : ofIni home f = ofIni home g := by
  cases hg : ofIni home g with
  | ok c => rw [ofIni_eq_ok, h, ← ofIni_eq_ok, hg]
  | error e => rw [ofIni_eq_error, h, ← ofIni_eq_error, hg]

theorem given_of_edits (h : Relation.EqvGen (Ini.Edit Known) f g) : given f = given g :=
  funext fun k => Ini.get?_of_edits h ⟨k, rfl, rfl⟩

theorem working_of_ofIni {c : Settings} (h : ofIni home f = .ok c) : Working c where
  maxWidth := (ofIni_loaded h).maxWidth.1
  maxHeight := (ofIni_loaded h).maxHeight.1
  timeout := (ofIni_loaded h).timeout.1
  srs := (ofIni_firm h).1
  background := (ofIni_firm h).2

end file

/-- A file without entries changes nothing. -/
theorem ofIni_empty (home : Option Path) : ofIni home ⟨[]⟩ = .ok (default home) := rfl

/-- A file is refused for the first checked key whose text is of no use, and read if there is none. What is
read has each field from its own key. Only the texts of the keys count, whatever else is changed in the
file. The limits are at least one, the texts that go into maps are not blank, and what follows `~/` stands
below the home directory, if one is known and what follows is a relative path. -/
theorem ofIni_overlays (home : Option Path) (f : Ini) :
    (∀ e, ofIni home f = .error e ↔ ∃ before k after, checks = before ++ k :: after ∧
      (∀ j ∈ before, j.Passes (given f)) ∧ k.Refuses (given f) e) ∧
    ((∃ c, ofIni home f = .ok c) ↔ ∀ k ∈ checks, k.Passes (given f)) ∧
    (∀ c, ofIni home f = .ok c ↔ Overlaid home (given f) c) ∧
    (∀ g, given f = given g → ofIni home f = ofIni home g) ∧
    (∀ g, Relation.EqvGen (Ini.Edit Known) f g → ofIni home f = ofIni home g) ∧
    (∀ c, ofIni home f = .ok c ∨ c = default home → Working c) ∧
    ∀ p ∈ home, ∀ rest : String, (⟨rest⟩ : Path).isAbsolute = false → p.text ≠ "" →
      (p.join ⟨rest⟩).parts = p.parts ++ (⟨rest⟩ : Path).segments.filterMap Path.partOf? := by
  refine ⟨fun e => ofIni_eq_error, exists_ofIni, fun c => ofIni_eq_ok, fun g h => ofIni_congr h,
    fun g h => ofIni_congr (given_of_edits h), fun c h => ?_, fun p _ rest hrest hp => ?_⟩
  · obtain h | rfl := h
    · exact working_of_ofIni h
    · exact working_of_ofIni (ofIni_empty home)
  · exact Path.parts_join hp hrest

/-- The order of the checks counts, not that of the file. -/
example : ofIni (some ⟨"/home"⟩) ⟨[⟨"render", [("timeout", "0")]⟩, ⟨"engine", [("row_order", " up")]⟩]⟩ =
    .error (.invalid "engine" "row_order" " up" "must be 'top-down' or 'bottom-up'") := by rfl

/-- Two slashes lead out of the home directory: what follows the first one counts as a path from the
root. -/
theorem ofIni_leaves_home : ¬ ∀ (home : Path) (f : Ini) (c : Settings) (rest : String), home.text ≠ "" →
    ofIni (some home) f = .ok c → given f .resources = some ("~/" ++ rest) →
    (home.below? c.engine.resources).isSome = true := by
  intro h
  have hread : ofIni (some ⟨"/home"⟩) ⟨[⟨"engine", [("resource_dir", "~//x")]⟩]⟩ =
      .ok { default (some ⟨"/home"⟩) with engine := { Engine.default with resources := ⟨"/x"⟩ } } := rfl
  have hbelow := h _ _ _ "/x" (by decide) hread rfl
  exact absurd hbelow (by decide)

end StyledMap.Settings
