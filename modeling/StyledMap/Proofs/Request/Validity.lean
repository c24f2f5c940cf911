import StyledMap.Proofs.Drawing.Legal
import StyledMap.Proofs.Json.Tokens
import StyledMap.Proofs.Request.Parameters

/-! Valid requests. A request is a list of checks made in order; each says what it asks for and which
faults it reports, without saying how it is made. A job comes of a request exactly if the request is
valid, and what is reported otherwise is the fault of the first check that refuses it. -/
namespace StyledMap.Request
open Steps

/-- Digits, after a plus sign or not, and the number they stand for. -/
inductive Side : List Char → Nat → Prop where
  | digits {ds : List Nat} {cs : List Char} (hne : ds ≠ []) (h : Json.Digits ds cs) :
      Side cs (Json.numberOf ds)
  | plus {ds : List Nat} {cs : List Char} (hne : ds ≠ []) (h : Json.Digits ds cs) :
      Side ('+' :: cs) (Json.numberOf ds)

inductive Check where
  | style
  | zooms
  | layers
  | srs
  | bgcolor
  | width
  | height
  | lon0
  | lat0
  | lon1
  | lat1
  | bbox
  deriving Repr, DecidableEq

def Check.order : List Check :=
  [.style, .zooms, .layers, .srs, .bgcolor, .width, .height, .lon0, .lat0, .lon1, .lat1, .bbox]

/-- The parameter that a check is about; the corners together go by a name of their own. -/
def Check.name : Check → String
  | .style => "style"
  | .zooms => "zooms"
  | .layers => "layers"
  | .srs => "srs"
  | .bgcolor => "bgcolor"
  | .width => "width"
  | .height => "height"
  | .lon0 => "lon0"
  | .lat0 => "lat0"
  | .lon1 => "lon1"
  | .lat1 => "lat1"
  | .bbox => "bbox"

/-- The parameter that a fault names. -/
def Fault.parameter? : Fault → Option String
  | .missing name | .invalid name _ | .reading name _ => some name
  | _ => none

namespace Params
variable (p : Params) (s : Settings.Render)

/-- The value of a parameter that may be left to the settings. -/
def Effective (name fallback value : String) : Prop :=
  p.Present name value ∨ (∀ raw, ¬ p.Present name raw) ∧ value = fallback

/-- The number that a parameter holds. -/
def Coordinate (name : String) (x : Float) : Prop :=
  ∃ raw, p.Present name raw ∧ Decimal.float? raw.toList = some x

def Corners (e : Extent Float) : Prop :=
  p.Coordinate "lon0" e.lon0 ∧ p.Coordinate "lat0" e.lat0 ∧ p.Coordinate "lon1" e.lon1 ∧
    p.Coordinate "lat1" e.lat1

/-- What a request has to be, for the job that comes of it. Sides are numbers of 32 bits. -/
structure Valid (j : Job) : Prop where
  styles : ∃ raw, p.Present "style" raw ∧ Drawing.readStyles raw = .ok j.styles
  someStyle : j.styles ≠ []
  zooms : ∃ raw, p.Present "zooms" raw ∧ Drawing.readZooms raw = .ok j.zooms
  layers : ∃ raw, p.Present "layers" raw ∧ Drawing.readLayers raw = .ok j.layers
  someLayer : j.layers ≠ []
  srs : p.Effective "srs" s.srs j.srs
  srsLegal : Xml.Legal j.srs.toList
  background : p.Effective "bgcolor" s.background j.background
  backgroundLegal : Xml.Legal j.background.toList
  width : ∃ raw, p.Present "width" raw ∧ Side raw.toList j.width
  widthBounds : 0 < j.width ∧ j.width ≤ s.maxWidth ∧ j.width ≤ Text.maxUnsigned32
  height : ∃ raw, p.Present "height" raw ∧ Side raw.toList j.height
  heightBounds : 0 < j.height ∧ j.height ≤ s.maxHeight ∧ j.height ≤ Text.maxUnsigned32
  corners : p.Corners j.extent
  finite : ∀ x ∈ [j.extent.lon0, j.extent.lat0, j.extent.lon1, j.extent.lat1], x.isFinite = true
  area : (j.extent.lon0 == j.extent.lon1) = false ∧ (j.extent.lat0 == j.extent.lat1) = false

/-! The faults that checks report, one definition for checks of a kind. -/

def Misses (name : String) (f : Fault) : Prop :=
  f = .missing name ∧ ∀ raw, ¬ p.Present name raw

def Unread {α : Type} (name : String) (read : String → Except Drawing.Fault α) (f : Fault) : Prop :=
  p.Misses name f ∨ ∃ raw e, p.Present name raw ∧ read raw = .error e ∧ f = .reading name e

def Nothing {α : Type} (name : String) (read : String → Except Drawing.Fault (List α)) (reason : String)
    (f : Fault) : Prop :=
  ∃ raw, p.Present name raw ∧ read raw = .ok [] ∧ f = .invalid name reason

def Illegal (name fallback : String) (f : Fault) : Prop :=
  ∃ value e, p.Effective name fallback value ∧ Drawing.checkText name value = .error e ∧
    f = .reading name e

inductive BadSide (name : String) (most : Nat) : Fault → Prop where
  | missing (h : ∀ raw, ¬ p.Present name raw) : BadSide name most (.missing name)
  | notWhole {raw : String} (hp : p.Present name raw)
      (h : ∀ n, Side raw.toList n → Text.maxUnsigned32 < n) :
      BadSide name most (.invalid name ("'" ++ raw ++ "' is not a positive integer"))
  | zero {raw : String} (hp : p.Present name raw) (h : Side raw.toList 0) :
      BadSide name most (.invalid name "must be greater than zero")
  | tooLarge {raw : String} {n : Nat} (hp : p.Present name raw) (hn : Side raw.toList n)
      (hfits : n ≤ Text.maxUnsigned32) (h : 0 < n ∧ most < n) :
      BadSide name most
        (.invalid name (Text.nat n ++ " exceeds the limit of " ++ Text.nat most))

def NoNumber (name : String) (f : Fault) : Prop :=
  p.Misses name f ∨ ∃ raw, p.Present name raw ∧ Decimal.float? raw.toList = none ∧
    f = .invalid name ("'" ++ raw ++ "' is not a number")

inductive NoExtent : Fault → Prop where
  | notFinite {e : Extent Float} {x : Float} (he : p.Corners e)
      (h : [e.lon0, e.lat0, e.lon1, e.lat1].find? (fun x => !x.isFinite) = some x) :
      NoExtent (.invalid "bbox" (Geo.Fault.notFinite x).message)
  | noArea {e : Extent Float} (he : p.Corners e)
      (hf : ∀ x ∈ [e.lon0, e.lat0, e.lon1, e.lat1], x.isFinite = true)
      (h : (e.lon0 == e.lon1) = true ∨ (e.lat0 == e.lat1) = true) :
      NoExtent (.invalid "bbox" Geo.Fault.noArea.message)

def Refuses : Check → Fault → Prop
  | .style => fun f => p.Unread "style" Drawing.readStyles f ∨
      p.Nothing "style" Drawing.readStyles "at least one style is required" f
  | .zooms => p.Unread "zooms" Drawing.readZooms
  | .layers => fun f => p.Unread "layers" Drawing.readLayers f ∨
      p.Nothing "layers" Drawing.readLayers "at least one layer is required" f
  | .srs => p.Illegal "srs" s.srs
  | .bgcolor => p.Illegal "bgcolor" s.background
  | .width => p.BadSide "width" s.maxWidth
  | .height => p.BadSide "height" s.maxHeight
  | .lon0 => p.NoNumber "lon0"
  | .lat0 => p.NoNumber "lat0"
  | .lon1 => p.NoNumber "lon1"
  | .lat1 => p.NoNumber "lat1"
  | .bbox => p.NoExtent

end Params

theorem digitsOnto_eq_some {k n : Nat} {cs : List Char} : Text.digitsOnto k cs = some n ↔
    ∃ ds, Json.Digits ds cs ∧ n = ds.foldl (fun n d => 10 * n + d) k := by
  induction cs generalizing k with
  | nil =>
    constructor
    · intro h
      exact ⟨[], rfl, (Option.some.inj h).symm⟩
    · rintro ⟨ds, hds, rfl⟩
      obtain rfl : ds = [] := by simpa [Json.Digits] using hds.symm
      rfl
  | cons c cs ih =>
    rw [Text.digitsOnto]
    constructor
    · intro h
      split at h
      · rename_i d hd
        obtain ⟨ds, hds, rfl⟩ := ih.1 h
        refine ⟨d :: ds, ?_, rfl⟩
        unfold Json.Digits at hds ⊢
        rw [List.map_cons, List.map_cons, hd, hds]
      · cases h
    · rintro ⟨ds, hds, rfl⟩
      cases ds with
      | nil => simp [Json.Digits] at hds
      | cons d ds =>
        obtain ⟨hd, hds⟩ := List.cons.inj hds
        rw [hd]
        exact ih.2 ⟨ds, hds, rfl⟩

theorem digits?_eq_some {n : Nat} {cs : List Char} :
    Text.digits? cs = some n ↔ ∃ ds, ds ≠ [] ∧ Json.Digits ds cs ∧ n = Json.numberOf ds := by
  cases cs with
  | nil =>
    constructor
    · intro h
      cases h
    · rintro ⟨ds, hne, hds, -⟩
      exact absurd (by simpa [Json.Digits] using hds.symm) hne
  | cons c cs =>
    rw [Text.digits?, digitsOnto_eq_some]
    · constructor
      · rintro ⟨ds, hds, rfl⟩
        refine ⟨ds, ?_, hds, rfl⟩
        rintro rfl
        simp [Json.Digits] at hds
      · rintro ⟨ds, -, hds, rfl⟩
        exact ⟨ds, hds, rfl⟩
    · simp

theorem digits?_dropPlus {n : Nat} {cs : List Char} :
    Text.digits? (Text.dropPlus cs) = some n ↔ Side cs n := by
  rw [digits?_eq_some]
  constructor
  · rintro ⟨ds, hne, hds, rfl⟩
    unfold Text.dropPlus at hds
    split at hds
    · exact .plus hne hds
    · exact .digits hne hds
  · intro h
    cases h with
    | @digits ds _ hne h =>
      refine ⟨ds, hne, ?_, rfl⟩
      obtain ⟨c, cs, rfl, hc⟩ := h.exists_cons hne
      have hplus : c ≠ '+' := by
        rintro rfl
        revert hc
        decide
      rwa [Text.dropPlus]
      simpa using hplus
    | @plus ds cs hne h => exact ⟨ds, hne, h, rfl⟩

theorem unsigned?_eq_some {limit n : Nat} {cs : List Char} :
    Text.unsigned? limit cs = some n ↔ Side cs n ∧ n ≤ limit := by
  unfold Text.unsigned?
  constructor
  · intro h
    split at h
    · rename_i m hm
      split at h
      · rename_i hle
        obtain rfl := Option.some.inj h
        exact ⟨digits?_dropPlus.1 hm, hle⟩
      · cases h
    · cases h
  · rintro ⟨hs, hle⟩
    rw [digits?_dropPlus.2 hs]
    exact if_pos hle

namespace Params
variable (p : Params) (s : Settings.Render)

theorem required_eq_error {name : String} {f : Fault} :
    p.required name = .error f ↔ p.Misses name f := by
  simp only [Misses, ← given?_eq_some, required]
  cases p.given? name <;> simp [eq_comm]

theorem effective_iff {name fallback value : String} :
    (p.given? name).getD fallback = value ↔ p.Effective name fallback value := by
  unfold Effective
  simp only [← given?_eq_some]
  cases p.given? name <;> simp [eq_comm]

theorem readWith_eq_error {α : Type} {name : String} {read : String → Except Drawing.Fault α}
    {f : Fault} : p.readWith name read = .error f ↔ p.Unread name read f := by
  simp only [readWith, bind_eq_error, required_eq_error, required_eq_ok, mapError_eq_error, Unread]
  refine or_congr_right (exists_congr fun raw => ?_)
  constructor
  · rintro ⟨hraw, e, he, rfl⟩
    exact ⟨e, hraw, he, rfl⟩
  · rintro ⟨e, hraw, he, rfl⟩
    exact ⟨hraw, e, he, rfl⟩

/-- A list that was read and must not be empty, as styles and layers are. -/
theorem some_eq_ok {α : Type} {x : Except Fault (List α)} {f : Fault} {as : List α} :
    (x >>= fun as => if as.isEmpty then .error f else pure as) = .ok as ↔ x = .ok as ∧ as ≠ [] := by
  rw [bind_eq_ok]
  constructor
  · rintro ⟨as', hx, h⟩
    split at h
    · cases h
    · rename_i hne
      obtain rfl := pure_eq_ok.1 h
      exact ⟨hx, by simpa using hne⟩
  · rintro ⟨hx, hne⟩
    exact ⟨as, hx, if_neg (by simpa using hne)⟩

theorem some_eq_error {α : Type} {x : Except Fault (List α)} {f g : Fault} :
    (x >>= fun as => if as.isEmpty then .error f else pure as) = .error g ↔
      x = .error g ∨ x = .ok [] ∧ g = f := by
  rw [bind_eq_error]
  refine or_congr_right ?_
  constructor
  · rintro ⟨as, hx, h⟩
    split at h
    · rename_i hnil
      exact ⟨List.isEmpty_iff.1 hnil ▸ hx, (Except.error.inj h).symm⟩
    · cases h
  · rintro ⟨hx, rfl⟩
    exact ⟨[], hx, rfl⟩

theorem styles_eq_ok {styles : List Style} : p.styles = .ok styles ↔
    (∃ raw, p.Present "style" raw ∧ Drawing.readStyles raw = .ok styles) ∧ styles ≠ [] := by
  rw [← readWith_eq_ok, ← some_eq_ok]
  rfl

theorem layers_eq_ok {layers : List Layer} : p.layers = .ok layers ↔
    (∃ raw, p.Present "layers" raw ∧ Drawing.readLayers raw = .ok layers) ∧ layers ≠ [] := by
  rw [← readWith_eq_ok, ← some_eq_ok]
  rfl

theorem styles_eq_error {f : Fault} : p.styles = .error f ↔ p.Refuses s .style f := by
  refine some_eq_error.trans ?_
  simp only [readWith_eq_error, readWith_eq_ok, Refuses, Nothing, ← and_assoc, exists_and_right]

theorem layers_eq_error {f : Fault} : p.layers = .error f ↔ p.Refuses s .layers f := by
  refine some_eq_error.trans ?_
  simp only [readWith_eq_error, readWith_eq_ok, Refuses, Nothing, ← and_assoc, exists_and_right]

theorem coordinate_eq_ok {name : String} {x : Float} :
    p.coordinate name = .ok x ↔ p.Coordinate name x := by
  simp only [coordinate, Coordinate, bind_eq_ok, required_eq_ok]
  refine exists_congr fun raw => and_congr_right fun _ => ?_
  cases Decimal.float? raw.toList <;> simp [pure, Except.pure]

theorem coordinate_eq_error {name : String} {f : Fault} :
    p.coordinate name = .error f ↔ p.NoNumber name f := by
  simp only [coordinate, bind_eq_error, required_eq_error, required_eq_ok, NoNumber]
  refine or_congr_right (exists_congr fun raw => and_congr_right fun _ => ?_)
  cases Decimal.float? raw.toList <;> simp [pure, Except.pure, eq_comm]

theorem dimension_eq_ok {name : String} {most n : Nat} : p.dimension name most = .ok n ↔
    (∃ raw, p.Present name raw ∧ Side raw.toList n) ∧
      0 < n ∧ n ≤ most ∧ n ≤ Text.maxUnsigned32 := by
  simp only [dimension, bind_eq_ok, required_eq_ok]
  constructor
  · rintro ⟨raw, hp, h⟩
    split at h
    · cases h
    · rename_i m hm
      split at h
      · cases h
      · split at h
        · cases h
        · rename_i hpos hle
          obtain rfl := pure_eq_ok.1 h
          obtain ⟨hside, hfits⟩ := unsigned?_eq_some.1 hm
          exact ⟨⟨raw, hp, hside⟩, by omega, by omega, hfits⟩
  · rintro ⟨⟨raw, hp, hside⟩, hpos, hle, hfits⟩
    refine ⟨raw, hp, ?_⟩
    rw [unsigned?_eq_some.2 ⟨hside, hfits⟩]
    dsimp only
    rw [if_neg (by omega), if_neg (by omega)]
    rfl

theorem badSide_of_dimension {name : String} {most : Nat} {f : Fault}
    (h : p.dimension name most = .error f) : p.BadSide name most f := by
  simp only [dimension, bind_eq_error, required_eq_error, required_eq_ok] at h
  obtain ⟨rfl, h⟩ | ⟨raw, hp, h⟩ := h
  · exact .missing h
  · split at h
    · rename_i hnone
      obtain rfl := Except.error.inj h
      refine .notWhole hp (fun n hn => Nat.lt_of_not_le fun hle => ?_)
      rw [unsigned?_eq_some.2 ⟨hn, hle⟩] at hnone
      cases hnone
    · rename_i n hn
      obtain ⟨hside, hfits⟩ := unsigned?_eq_some.1 hn
      split at h
      · rename_i hzero
        obtain rfl := Except.error.inj h
        exact .zero hp (hzero ▸ hside)
      · split at h
        · rename_i hpos hlt
          obtain rfl := Except.error.inj h
          exact .tooLarge hp hside hfits ⟨by omega, hlt⟩
        · cases h

theorem BadSide.dimension {name : String} {most : Nat} {f : Fault} (h : p.BadSide name most f) :
    p.dimension name most = .error f := by
  simp only [Params.dimension, bind_eq_error, required_eq_error, required_eq_ok]
  cases h with
  | missing h => exact .inl ⟨rfl, h⟩
  | notWhole hp h =>
    refine .inr ⟨_, hp, ?_⟩
    split
    · rfl
    · rename_i n hn
      obtain ⟨hside, hfits⟩ := unsigned?_eq_some.1 hn
      exact absurd (h n hside) (by omega)
  | zero hp h =>
    refine .inr ⟨_, hp, ?_⟩
    rw [unsigned?_eq_some.2 ⟨h, Nat.zero_le _⟩]
    rfl
  | tooLarge hp hn hfits h =>
    refine .inr ⟨_, hp, ?_⟩
    rw [unsigned?_eq_some.2 ⟨hn, hfits⟩]
    dsimp only
    rw [if_neg (by omega), if_pos h.2]

theorem dimension_eq_error {name : String} {most : Nat} {f : Fault} :
    p.dimension name most = .error f ↔ p.BadSide name most f :=
  ⟨p.badSide_of_dimension, fun h => h.dimension⟩

theorem checked_eq_ok {name value : String} : checked name value = .ok () ↔ Xml.Legal value.toList :=
  mapError_eq_ok.trans Drawing.checkText_eq_ok

theorem checked_eq_error {name fallback : String} {f : Fault} :
    checked name ((p.given? name).getD fallback) = .error f ↔ p.Illegal name fallback f := by
  simp only [checked, mapError_eq_error, Illegal, ← effective_iff]
  constructor
  · rintro ⟨e, he, rfl⟩
    exact ⟨_, e, rfl, he, rfl⟩
  · rintro ⟨_, e, rfl, he, rfl⟩
    exact ⟨e, he, rfl⟩

theorem find?_isFinite {xs : List Float} :
    xs.find? (fun x => !x.isFinite) = none ↔ ∀ x ∈ xs, x.isFinite = true := by
  simp

theorem make_eq_ok {e e' : Extent Float} :
    Extent.make e.lon0 e.lat0 e.lon1 e.lat1 = .ok e' ↔ e' = e ∧
      (∀ x ∈ [e.lon0, e.lat0, e.lon1, e.lat1], x.isFinite = true) ∧
      (e.lon0 == e.lon1) = false ∧ (e.lat0 == e.lat1) = false := by
  rw [← find?_isFinite, Extent.make, ← Bool.or_eq_false_iff]
  cases [e.lon0, e.lat0, e.lon1, e.lat1].find? (fun x => !x.isFinite) with
  | some x => simp
  | none =>
    cases e.lon0 == e.lon1 || e.lat0 == e.lat1 with
    | true => simp
    | false => exact ⟨fun h => ⟨(Except.ok.inj h).symm, rfl, rfl⟩, fun h => h.1 ▸ rfl⟩

theorem make_eq_error {e : Extent Float} {g : Geo.Fault} :
    Extent.make e.lon0 e.lat0 e.lon1 e.lat1 = .error g ↔
      (∃ x, [e.lon0, e.lat0, e.lon1, e.lat1].find? (fun x => !x.isFinite) = some x ∧
        g = .notFinite x) ∨
      (∀ x ∈ [e.lon0, e.lat0, e.lon1, e.lat1], x.isFinite = true) ∧
        ((e.lon0 == e.lon1) = true ∨ (e.lat0 == e.lat1) = true) ∧ g = .noArea := by
  rw [← find?_isFinite, Extent.make, ← Bool.or_eq_true_iff]
  cases [e.lon0, e.lat0, e.lon1, e.lat1].find? (fun x => !x.isFinite) with
  | some x =>
    constructor
    · intro h
      exact .inl ⟨x, rfl, (Except.error.inj h).symm⟩
    · rintro (⟨y, ⟨⟩, rfl⟩ | ⟨⟨⟩, -⟩)
      rfl
  | none => cases e.lon0 == e.lon1 || e.lat0 == e.lat1 <;> simp [eq_comm]

theorem extent_eq_ok {e : Extent Float} : p.extent = .ok e ↔ p.Corners e ∧
    (∀ x ∈ [e.lon0, e.lat0, e.lon1, e.lat1], x.isFinite = true) ∧
    (e.lon0 == e.lon1) = false ∧ (e.lat0 == e.lat1) = false := by
  simp only [extent, bind_eq_ok, coordinate_eq_ok, mapError_eq_ok]
  constructor
  · rintro ⟨lon0, h0, lat0, h1, lon1, h2, lat1, h3, hmake⟩
    obtain ⟨rfl, hf, ha⟩ := (make_eq_ok (e := ⟨lon0, lat0, lon1, lat1⟩)).1 hmake
    exact ⟨⟨h0, h1, h2, h3⟩, hf, ha⟩
  · rintro ⟨⟨h0, h1, h2, h3⟩, hf, ha⟩
    exact ⟨_, h0, _, h1, _, h2, _, h3, make_eq_ok.2 ⟨rfl, hf, ha⟩⟩

/-- The corners are looked at once all of them are read. -/
def cornersOutcome : Except Fault Unit :=
  match p.coordinate "lon0", p.coordinate "lat0", p.coordinate "lon1", p.coordinate "lat1" with
  | .ok lon0, .ok lat0, .ok lon1, .ok lat1 =>
    ((Extent.make lon0 lat0 lon1 lat1).mapError (fun f => .invalid "bbox" f.message)).map (fun _ => ())
  | _, _, _, _ => .ok ()

/-- What comes of a check, apart from the value it reads. -/
def outcome : Check → Except Fault Unit
  | .style => p.styles.map (fun _ => ())
  | .zooms => (p.readWith "zooms" Drawing.readZooms).map (fun _ => ())
  | .layers => p.layers.map (fun _ => ())
  | .srs => checked "srs" ((p.given? "srs").getD s.srs)
  | .bgcolor => checked "bgcolor" ((p.given? "bgcolor").getD s.background)
  | .width => (p.dimension "width" s.maxWidth).map (fun _ => ())
  | .height => (p.dimension "height" s.maxHeight).map (fun _ => ())
  | .lon0 => (p.coordinate "lon0").map (fun _ => ())
  | .lat0 => (p.coordinate "lat0").map (fun _ => ())
  | .lon1 => (p.coordinate "lon1").map (fun _ => ())
  | .lat1 => (p.coordinate "lat1").map (fun _ => ())
  | .bbox => p.cornersOutcome

theorem cornersOutcome_eq_error {f : Fault} : p.cornersOutcome = .error f ↔ p.NoExtent f := by
  unfold cornersOutcome
  constructor
  · intro h
    split at h
    · rename_i lon0 lat0 lon1 lat1 h0 h1 h2 h3
      simp only [coordinate_eq_ok] at h0 h1 h2 h3
      obtain ⟨g, hg, rfl⟩ := mapError_eq_error.1 (map_eq_error.1 h)
      have he : p.Corners ⟨lon0, lat0, lon1, lat1⟩ := ⟨h0, h1, h2, h3⟩
      obtain ⟨x, hx, rfl⟩ | ⟨hf, ha, rfl⟩ := (make_eq_error (e := ⟨lon0, lat0, lon1, lat1⟩)).1 hg
      · exact .notFinite he hx
      · exact .noArea he hf ha
    · cases h
  · intro h
    have fails {e : Extent Float} (he : p.Corners e) {g : Geo.Fault}
        (hg : Extent.make e.lon0 e.lat0 e.lon1 e.lat1 = .error g) :
        p.cornersOutcome = .error (.invalid "bbox" g.message) := by
      obtain ⟨h0, h1, h2, h3⟩ := he
      simp only [← coordinate_eq_ok] at h0 h1 h2 h3
      unfold cornersOutcome
      rw [h0, h1, h2, h3]
      dsimp only
      rw [hg]
      rfl
    cases h with
    | notFinite he h => exact fails he (make_eq_error.2 (.inl ⟨_, h, rfl⟩))
    | noArea he hf h => exact fails he (make_eq_error.2 (.inr ⟨hf, h, rfl⟩))

theorem outcome_eq_error {c : Check} {f : Fault} :
    p.outcome s c = .error f ↔ p.Refuses s c f := by
  cases c with
  | style => exact map_eq_error.trans (p.styles_eq_error s)
  | zooms => exact map_eq_error.trans p.readWith_eq_error
  | layers => exact map_eq_error.trans (p.layers_eq_error s)
  | srs => exact p.checked_eq_error
  | bgcolor => exact p.checked_eq_error
  | width => exact map_eq_error.trans p.dimension_eq_error
  | height => exact map_eq_error.trans p.dimension_eq_error
  | lon0 => exact map_eq_error.trans p.coordinate_eq_error
  | lat0 => exact map_eq_error.trans p.coordinate_eq_error
  | lon1 => exact map_eq_error.trans p.coordinate_eq_error
  | lat1 => exact map_eq_error.trans p.coordinate_eq_error
  | bbox => exact p.cornersOutcome_eq_error

theorem outcome_eq_ok {c : Check} : p.outcome s c = .ok () ↔ ∀ f, ¬ p.Refuses s c f := by
  simp only [← outcome_eq_error]
  cases p.outcome s c with
  | ok u => simp
  | error f => simp

theorem extent_outcome : p.extent.map (fun _ => ()) =
    [Check.lon0, .lat0, .lon1, .lat1, .bbox].forM (p.outcome s) := by
  refine map_bind fun lon0 h0 => map_bind fun lat0 h1 => map_bind fun lon1 h2 =>
    map_bind fun lat1 h3 => ?_
  have hcorners : p.outcome s .bbox =
      ((Extent.make lon0 lat0 lon1 lat1).mapError (fun f => .invalid "bbox" f.message)).map
        (fun _ => ()) := by
    rw [outcome, cornersOutcome, h0, h1, h2, h3]
  rw [← hcorners]
  exact bind_pure_unit.symm

/-- A job fails as its checks do, one after the other. -/
theorem job_outcome : (p.job s).map (fun _ => ()) = Check.order.forM (p.outcome s) := by
  refine map_bind fun styles _ => map_bind fun zooms _ => map_bind fun layers _ =>
    map_bind_unit <| map_bind_unit <| map_bind fun width _ => map_bind fun height _ => ?_
  refine Eq.trans ?_ (p.extent_outcome s)
  cases p.extent <;> rfl

theorem job_eq_error {f : Fault} : p.job s = .error f ↔
    ∃ earlier c later, Check.order = earlier ++ c :: later ∧
      (∀ b ∈ earlier, ∀ g, ¬ p.Refuses s b g) ∧ p.Refuses s c f := by
  rw [← map_eq_error, job_outcome, forM_eq_error]
  simp only [outcome_eq_error, outcome_eq_ok]

theorem gives_iff_valid {j : Job} : p.Gives s j ↔ p.Valid s j := by
  constructor
  · intro h
    obtain ⟨hstyles, hsome⟩ := p.styles_eq_ok.1 h.styles
    obtain ⟨hlayers, hlayer⟩ := p.layers_eq_ok.1 h.layers
    obtain ⟨hwidth, hwbounds⟩ := p.dimension_eq_ok.1 h.width
    obtain ⟨hheight, hhbounds⟩ := p.dimension_eq_ok.1 h.height
    obtain ⟨hcorners, hfinite, harea⟩ := p.extent_eq_ok.1 h.extent
    exact ⟨hstyles, hsome, p.readWith_eq_ok.1 h.zooms, hlayers, hlayer, p.effective_iff.1 h.srs,
      checked_eq_ok.1 h.srsChecked, p.effective_iff.1 h.background,
      checked_eq_ok.1 h.backgroundChecked, hwidth, hwbounds, hheight, hhbounds, hcorners, hfinite,
      harea⟩
  · intro h
    exact ⟨p.styles_eq_ok.2 ⟨h.styles, h.someStyle⟩, p.readWith_eq_ok.2 h.zooms,
      p.layers_eq_ok.2 ⟨h.layers, h.someLayer⟩, p.effective_iff.2 h.srs,
      p.effective_iff.2 h.background, checked_eq_ok.2 h.srsLegal, checked_eq_ok.2 h.backgroundLegal,
      p.dimension_eq_ok.2 ⟨h.width, h.widthBounds⟩, p.dimension_eq_ok.2 ⟨h.height, h.heightBounds⟩,
      p.extent_eq_ok.2 ⟨h.corners, h.finite, h.area⟩⟩

/-- A check names its parameter in whatever it reports. -/
theorem Refuses.parameter {c : Check} {f : Fault} (h : p.Refuses s c f) :
    f.parameter? = some c.name := by
  have unread {α : Type} {name : String} {read : String → Except Drawing.Fault α} {f : Fault}
      (h : p.Unread name read f) : f.parameter? = some name := by
    obtain ⟨rfl, -⟩ | ⟨raw, e, -, -, rfl⟩ := h <;> rfl
  have side {name : String} {most : Nat} {f : Fault} (h : p.BadSide name most f) :
      f.parameter? = some name := by
    cases h <;> rfl
  have number {name : String} {f : Fault} (h : p.NoNumber name f) : f.parameter? = some name := by
    obtain ⟨rfl, -⟩ | ⟨raw, -, -, rfl⟩ := h <;> rfl
  cases c with
  | style | layers =>
    obtain h | ⟨raw, -, -, rfl⟩ := h
    · exact unread h
    · rfl
  | zooms => exact unread h
  | srs | bgcolor =>
    obtain ⟨value, e, -, -, rfl⟩ := h
    rfl
  | width | height => exact side h
  | lon0 | lat0 | lon1 | lat1 => exact number h
  | bbox => cases h <;> rfl

/-- Jobs come of valid requests, with the values of the request; of any other request comes what the
first check that refuses it reports. -/
theorem job_spec : (∀ j, p.job s = .ok j ↔ p.Valid s j) ∧
    ∀ f, p.job s = .error f ↔ ∃ earlier c later, Check.order = earlier ++ c :: later ∧
      (∀ b ∈ earlier, ∀ g, ¬ p.Refuses s b g) ∧ p.Refuses s c f ∧ f.parameter? = some c.name := by
  refine ⟨fun j => (p.job_eq_ok s j).trans (p.gives_iff_valid s), fun f => (p.job_eq_error s).trans ?_⟩
  constructor
  · rintro ⟨earlier, c, later, horder, hearlier, hc⟩
    exact ⟨earlier, c, later, horder, hearlier, hc, Refuses.parameter p s hc⟩
  · rintro ⟨earlier, c, later, horder, hearlier, hc, -⟩
    exact ⟨earlier, c, later, horder, hearlier, hc⟩

end Params
end StyledMap.Request
