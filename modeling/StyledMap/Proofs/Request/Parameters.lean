import StyledMap.Proofs.Steps
import StyledMap.Request.Job

/-! The parameters of a request as one list of checks: a job comes of them exactly if all succeed,
and whatever fails is the fault of whoever asked. -/
namespace StyledMap.Request
open Steps

/-- Faults that parameters have. -/
def Fault.OfParams : Fault → Prop
  | .missing _ | .invalid _ _ | .reading _ _ => True
  | _ => False

theorem Fault.OfParams.status {f : Fault} (h : f.OfParams) : f.kind.status = 400 := by
  cases f with
  | reading name d => cases d <;> rfl
  | missing | invalid => rfl
  | document | render | timeout | aborted => cases h

namespace Params
variable (p : Params)

theorem required_fails (name : String) : Fails Fault.OfParams (p.required name) := by
  unfold required
  cases p.given? name with
  | none => exact .error trivial
  | some v => exact .ok v

theorem readWith_fails {α : Type} (name : String) (read : String → Except Drawing.Fault α) :
    Fails Fault.OfParams (p.readWith name read) :=
  (p.required_fails name).bind (fun raw => .mapError (fun _ => trivial) (read raw))

theorem styles_fails : Fails Fault.OfParams p.styles := by
  apply (p.readWith_fails "style" Drawing.readStyles).bind
  intro styles
  split
  · exact .error trivial
  · exact .ok styles

theorem layers_fails : Fails Fault.OfParams p.layers := by
  apply (p.readWith_fails "layers" Drawing.readLayers).bind
  intro layers
  split
  · exact .error trivial
  · exact .ok layers

theorem checked_fails (name value : String) : Fails Fault.OfParams (checked name value) :=
  .mapError (fun _ => trivial) _

theorem dimension_fails (name : String) (most : Nat) :
    Fails Fault.OfParams (p.dimension name most) := by
  apply (p.required_fails name).bind
  intro raw
  split
  · exact .error trivial
  · rename_i n hn
    split
    · exact .error trivial
    · split
      · exact .error trivial
      · exact .ok n

theorem coordinate_fails (name : String) : Fails Fault.OfParams (p.coordinate name) := by
  apply (p.required_fails name).bind
  intro raw
  split
  · rename_i x hx
    exact .ok x
  · exact .error trivial

theorem extent_fails : Fails Fault.OfParams p.extent :=
  (p.coordinate_fails "lon0").bind fun _ =>
  (p.coordinate_fails "lat0").bind fun _ =>
  (p.coordinate_fails "lon1").bind fun _ =>
  (p.coordinate_fails "lat1").bind fun _ => .mapError (fun _ => trivial) _

theorem job_fails (s : Settings.Render) : Fails Fault.OfParams (p.job s) :=
  p.styles_fails.bind fun _ =>
  (p.readWith_fails "zooms" Drawing.readZooms).bind fun _ =>
  p.layers_fails.bind fun _ =>
  (checked_fails "srs" _).bind fun _ =>
  (checked_fails "bgcolor" _).bind fun _ =>
  (p.dimension_fails "width" s.maxWidth).bind fun _ =>
  (p.dimension_fails "height" s.maxHeight).bind fun _ =>
  p.extent_fails.bind fun _ => .ok _

/-- Of a repeated name the last value counts. -/
theorem get?_ofPairs (pairs : List (String × String)) (name : String) :
    (ofPairs pairs).get? name = pairs.reverse.lookup name := by
  have onto (p : Params) : (pairs.foldl (fun p pair => p.set pair.1 pair.2) p).bindings =
      pairs.reverse ++ p.bindings := by
    induction pairs generalizing p with
    | nil => rfl
    | cons pair pairs ih => rw [List.foldl_cons, ih, set]; simp
  rw [ofPairs, get?, onto]
  simp [empty]

section Given
variable {q : Params} {name : String}

theorem required_of_given (h : p.given? name = q.given? name) : p.required name = q.required name := by
  unfold required
  rw [h]

theorem readWith_of_given {α : Type} (h : p.given? name = q.given? name)
    (read : String → Except Drawing.Fault α) : p.readWith name read = q.readWith name read := by
  unfold readWith
  rw [p.required_of_given h]

theorem coordinate_of_given (h : p.given? name = q.given? name) :
    p.coordinate name = q.coordinate name := by
  unfold coordinate
  rw [p.required_of_given h]

theorem dimension_of_given (h : p.given? name = q.given? name) (most : Nat) :
    p.dimension name most = q.dimension name most := by
  unfold dimension
  rw [p.required_of_given h]

end Given

/-- The parameters that are looked at. -/
def names : List String :=
  ["style", "zooms", "layers", "srs", "bgcolor", "width", "height", "lon0", "lat0", "lon1", "lat1"]

/-- A job is made of what is given for these, whatever else there is. -/
theorem job_of_given {q : Params} (h : ∀ name ∈ names, p.given? name = q.given? name)
    (s : Settings.Render) : p.job s = q.job s := by
  have hstyles : p.styles = q.styles := by
    unfold styles
    rw [p.readWith_of_given (h "style" (by decide))]
  have hlayers : p.layers = q.layers := by
    unfold layers
    rw [p.readWith_of_given (h "layers" (by decide))]
  have hextent : p.extent = q.extent := by
    unfold extent
    rw [p.coordinate_of_given (h "lon0" (by decide)), p.coordinate_of_given (h "lat0" (by decide)),
      p.coordinate_of_given (h "lon1" (by decide)), p.coordinate_of_given (h "lat1" (by decide))]
  unfold job
  rw [hstyles, p.readWith_of_given (h "zooms" (by decide)), hlayers, h "srs" (by decide),
    h "bgcolor" (by decide), p.dimension_of_given (h "width" (by decide)),
    p.dimension_of_given (h "height" (by decide)), hextent]

/-- A parameter is given, with more than blanks; they are dropped around it. -/
def Present (name raw : String) : Prop :=
  ∃ text, p.get? name = some text ∧ raw = Text.trimmed text ∧ raw ≠ ""

theorem given?_eq_some {name raw : String} : p.given? name = some raw ↔ p.Present name raw := by
  unfold given? Text.nonblank? Present
  rw [Option.bind_eq_some_iff]
  constructor
  · rintro ⟨text, ht, h⟩
    split at h
    · cases h
    · rename_i hne
      obtain rfl := Option.some.inj h
      exact ⟨text, ht, rfl, hne⟩
  · rintro ⟨text, ht, rfl, hne⟩
    exact ⟨text, ht, if_neg hne⟩

theorem required_eq_ok {name raw : String} : p.required name = .ok raw ↔ p.Present name raw := by
  rw [← given?_eq_some, required]
  cases p.given? name <;> simp

theorem readWith_eq_ok {α : Type} {name : String} {read : String → Except Drawing.Fault α} {a : α} :
    p.readWith name read = .ok a ↔ ∃ raw, p.Present name raw ∧ read raw = .ok a := by
  simp only [readWith, bind_eq_ok, mapError_eq_ok, required_eq_ok]

/-- What a job is made of. -/
structure Gives (s : Settings.Render) (j : Job) : Prop where
  styles : p.styles = .ok j.styles
  zooms : p.readWith "zooms" Drawing.readZooms = .ok j.zooms
  layers : p.layers = .ok j.layers
  srs : (p.given? "srs").getD s.srs = j.srs
  background : (p.given? "bgcolor").getD s.background = j.background
  srsChecked : checked "srs" j.srs = .ok ()
  backgroundChecked : checked "bgcolor" j.background = .ok ()
  width : p.dimension "width" s.maxWidth = .ok j.width
  height : p.dimension "height" s.maxHeight = .ok j.height
  extent : p.extent = .ok j.extent

theorem job_eq_ok (s : Settings.Render) (j : Job) : p.job s = .ok j ↔ p.Gives s j := by
  unfold job
  simp only [bind_eq_ok, pure_eq_ok]
  constructor
  · rintro ⟨styles, hs, zooms, hz, layers, hl, ⟨⟩, hsrs, ⟨⟩, hbg, width, hw, height, hh, extent, he,
      rfl⟩
    exact ⟨hs, hz, hl, rfl, rfl, hsrs, hbg, hw, hh, he⟩
  · rintro ⟨hs, hz, hl, hsrs, hbg, hsc, hbc, hw, hh, he⟩
    refine ⟨_, hs, _, hz, _, hl, (), ?_, (), ?_, _, hw, _, hh, _, he, ?_⟩
    · rw [hsrs]
      exact hsc
    · rw [hbg]
      exact hbc
    · rw [hsrs, hbg]

end Params
end StyledMap.Request
