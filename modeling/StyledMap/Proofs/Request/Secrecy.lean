import StyledMap.Proofs.Drawing.Passwords
import StyledMap.Proofs.Request.Course
import StyledMap.Proofs.Request.Inlining

/-! Passwords stay out of replies and journals. Two requests that differ in passwords alone take the same
course: the same faults at the same stages, the same reply, and the same lines in the journal, but for
the size of the document that a password is part of. -/
namespace StyledMap.Request
open Steps

/-- The same parameters, apart from the passwords in the layers. -/
structure Params.SameButPasswords (p q : Params) : Prop where
  others : ∀ name, name ≠ "layers" → p.get? name = q.get? name
  layers : ∃ text other, p.get? "layers" = some text ∧ q.get? "layers" = some other ∧
    Drawing.SameButPasswords text other

/-- The same entry, apart from a number of bytes of the document. -/
inductive Entry.SameButSize : Entry → Entry → Prop where
  | same (e : Entry) : SameButSize e e
  | compiled (layers styles thresholds bytes bytes' : Nat) :
      SameButSize (.document (.compiled layers styles thresholds bytes))
        (.document (.compiled layers styles thresholds bytes'))
  | documentSize (bytes bytes' : Nat) : SameButSize (.documentSize bytes) (.documentSize bytes')

theorem Entry.SameButSize.level {e e' : Entry} (h : e.SameButSize e') : e.level = e'.level := by
  cases h with
  | same | compiled | documentSize => rfl

/-- The lines in the journal are the same, or end in numbers of bytes. -/
theorem Entry.SameButSize.text {e e' : Entry} (h : e.SameButSize e') :
    e.text = e'.text ∨ ∃ start bytes bytes',
      e.text = start ++ Text.nat bytes ++ " bytes" ∧ e'.text = start ++ Text.nat bytes' ++ " bytes" := by
  cases h with
  | same e => exact .inl rfl
  | compiled layers styles thresholds bytes bytes' => exact .inr ⟨_, bytes, bytes', rfl, rfl⟩
  | documentSize bytes bytes' => exact .inr ⟨"Map document is ", bytes, bytes', rfl, rfl⟩

/-- What an engine does with a call does not depend on the document. -/
def IgnoresDocument (e : Render.Engine) : Prop :=
  ∀ (c : Render.Call) (d : MapDocument), e.draw { c with document := d } = e.draw c

structure Job.SameButPasswords (j k : Job) : Prop where
  styles : j.styles = k.styles
  zooms : j.zooms = k.zooms
  layers : List.Forall₂ Layer.SameButPassword j.layers k.layers
  srs : j.srs = k.srs
  background : j.background = k.background
  request : j.request = k.request

/-- A text that spells a tree is not blank, and spells it without its blanks. -/
theorem nonblank_of_spells {t : Json.Tree} {text : String} (h : t.Spells text.toList) :
    Text.nonblank? text = some (Text.trimmed text) ∧ t.Spells (Text.trimmed text).toList := by
  have htrimmed : t.Spells (Text.trimmed text).toList := by
    rw [Text.trimmed, String.toList_ofList]
    exact h.trim
  refine ⟨if_neg (fun hempty => ?_), htrimmed⟩
  have hnone : Json.Tree.parse? "" = none := by decide
  rw [hempty, ← Json.Tree.parse?_eq_some, hnone] at htrimmed
  cases htrimmed

namespace Params
variable {p q : Params}

theorem SameButPasswords.given (h : p.SameButPasswords q) :
    ∃ text other, p.given? "layers" = some text ∧ q.given? "layers" = some other ∧
      Drawing.SameButPasswords text other := by
  obtain ⟨text, other, hp, hq, ts, us, ht, hu, hall⟩ := h.layers
  obtain ⟨hp', ht⟩ := nonblank_of_spells ht
  obtain ⟨hq', hu⟩ := nonblank_of_spells hu
  refine ⟨_, _, ?_, ?_, ts, us, ht, hu, hall⟩
  · rw [given?, hp, Option.bind_some, hp']
  · rw [given?, hq, Option.bind_some, hq']

theorem readWith_congr {α : Type} {name : String} (h : p.get? name = q.get? name)
    (read : String → Except Drawing.Fault α) : p.readWith name read = q.readWith name read :=
  p.readWith_of_given (given?_congr h) read

theorem layers_same (h : p.SameButPasswords q) :
    Agree (List.Forall₂ Layer.SameButPassword) p.layers q.layers := by
  obtain ⟨text, other, hp, hq, hsame⟩ := h.given
  have hread : Agree (List.Forall₂ Layer.SameButPassword) (p.readWith "layers" Drawing.readLayers)
      (q.readWith "layers" Drawing.readLayers) := by
    simp only [readWith, required, hp, hq]
    exact (Drawing.readLayers_same hsame).mapError _
  refine hread.bind (fun layers layers' hl => ?_)
  cases hl with
  | nil => exact .error _
  | cons hl hrest => exact .ok (.cons hl hrest)

theorem job_same (h : p.SameButPasswords q) (s : Settings.Render) :
    Agree Job.SameButPasswords (p.job s) (q.job s) := by
  have same (name : String) (hn : name ≠ "layers") := h.others name hn
  have hstyles : p.styles = q.styles := by
    rw [styles, styles, readWith_congr (same "style" (by decide))]
  have hextent : p.extent = q.extent := by
    unfold extent
    rw [coordinate_congr (same "lon0" (by decide)), coordinate_congr (same "lat0" (by decide)),
      coordinate_congr (same "lon1" (by decide)), coordinate_congr (same "lat1" (by decide))]
  unfold job
  rw [hstyles, readWith_congr (same "zooms" (by decide)), given?_congr (same "srs" (by decide)),
    given?_congr (same "bgcolor" (by decide)), dimension_congr (same "width" (by decide)),
    dimension_congr (same "height" (by decide)), hextent]
  refine .bind_self _ fun styles => .bind_self _ fun zooms => (layers_same h).bind fun l l' hl =>
    .bind_self _ fun _ => .bind_self _ fun _ => .bind_self _ fun width => .bind_self _ fun height =>
      .bind_self _ fun extent => .ok ?_
  exact ⟨rfl, rfl, hl, rfl, rfl, rfl⟩

end Params

theorem dangling_same (styles : List Style) {layers layers' : List Layer}
    (h : List.Forall₂ Layer.SameButPassword layers layers') :
    MapDocument.dangling styles layers = MapDocument.dangling styles layers' := by
  unfold MapDocument.dangling
  induction h with
  | nil => rfl
  | @cons l l' layers layers' hl _ ih =>
    obtain ⟨hname, hstyle⟩ := hl.head
    rw [List.filter_cons, List.filter_cons, hstyle]
    split
    · rw [List.map_cons, List.map_cons, ih, hname, hstyle]
    · exact ih

/-- Compiling fails alike, or gives two documents; nothing but their sizes is reported of these. -/
theorem compile_same {j k : Job} (h : j.SameButPasswords k) :
    (∃ notices f, j.compile = (notices, .error f) ∧ k.compile = (notices, .error f)) ∨
      ∃ notices layers styles thresholds d d',
        j.compile = (notices ++ [.compiled layers styles thresholds d.size], .ok d) ∧
        k.compile = (notices ++ [.compiled layers styles thresholds d'.size], .ok d') := by
  simp only [Job.compile, MapDocument.compile, MapDocument.mapItem, h.styles, h.zooms, h.srs,
    h.background, dangling_same k.styles h.layers, h.layers.length_eq]
  cases k.styles.mapM (MapDocument.styleItem (Threshold.table k.zooms)) with
  | error f => exact .inl ⟨_, f, rfl, rfl⟩
  | ok drawn => exact .inr ⟨_, _, _, _, _, _, rfl, rfl⟩

/-- Trails through the same stages, with the same entries apart from sizes. -/
structure Trail.Same (t u : Trail) : Prop where
  stage : t.stage = u.stage
  visited : t.visited = u.visited
  journal : List.Forall₂ Entry.SameButSize t.journal u.journal

theorem entries_refl (entries : List Entry) : List.Forall₂ Entry.SameButSize entries entries :=
  List.forall₂_same.2 (fun e _ => .same e)

theorem Trail.Same.refl (t : Trail) : t.Same t := ⟨rfl, rfl, entries_refl t.journal⟩

theorem Trail.Same.note {t u : Trail} (h : t.Same u) {entries others : List Entry}
    (he : List.Forall₂ Entry.SameButSize entries others) : (t.note entries).Same (u.note others) :=
  ⟨h.stage, h.visited, List.rel_append h.journal he⟩

theorem Trail.Same.enter {t u : Trail} (h : t.Same u) (next : Stage) :
    (t.enter next).Same (u.enter next) := by
  refine ⟨rfl, by rw [visited_enter, visited_enter, h.visited], ?_⟩
  simp only [Trail.enter, h.stage]
  exact List.rel_append h.journal (entries_refl _)

/-- What is seen of a handled request from outside. -/
structure Handled.Same (h h' : Handled) : Prop where
  outcome : h.outcome = h'.outcome
  trail : h.trail.Same h'.trail

theorem Trail.Same.refuse {t u : Trail} (h : t.Same u) (f : Fault) (calls calls' : List Render.Call)
    (images : List Image) : (t.refuse f calls images).Same (u.refuse f calls' images) :=
  ⟨rfl, ((h.enter (.failed f.kind)).enter .responding).note (entries_refl _)⟩

theorem Trail.Same.answer {t u : Trail} (h : t.Same u) (tile : Render.EncodedTile)
    (calls calls' : List Render.Call) (images : List Image) :
    (t.answer tile calls images).Same (u.answer tile calls' images) :=
  ⟨rfl, (h.enter .responding).note (entries_refl _)⟩

section Handling
variable {s : Service}

theorem rasterize_same (he : IgnoresDocument s.renderer.engine) (d d' : MapDocument)
    (q : Render.Request) :
    (s.renderer.rasterize d s.resources q).notices = (s.renderer.rasterize d' s.resources q).notices ∧
      (s.renderer.rasterize d s.resources q).result =
        (s.renderer.rasterize d' s.resources q).result := by
  unfold Render.Renderer.rasterize
  cases Render.newCanvas q.width q.height with
  | error e => exact ⟨rfl, rfl⟩
  | ok canvas =>
    have hdraw := he ⟨s.resources, d', q.width, q.height, q.extent, canvas⟩ d
    simp only [hdraw]
    cases s.renderer.engine.draw ⟨s.resources, d', q.width, q.height, q.extent, canvas⟩ <;>
      exact ⟨rfl, rfl⟩

theorem encode_same {t u : Trail} (h : t.Same u) (image : Image) (calls calls' : List Render.Call) :
    (s.encode t image calls).Same (s.encode u image calls') := by
  unfold Service.encode
  cases s.renderer.encode image with
  | mk notices result =>
    have hnoted := (h.enter .encoding).note (entries_refl (notices.map .render))
    cases result with
    | error f => exact hnoted.refuse _ _ _ _
    | ok tile => exact hnoted.answer _ _ _ _

theorem render_same (he : IgnoresDocument s.renderer.engine) {t u : Trail} (h : t.Same u) {j k : Job}
    (hjk : j.request = k.request) (d d' : MapDocument) :
    (s.render t j d).Same (s.render u k d') := by
  have hsize : List.Forall₂ Entry.SameButSize [.documentSize d.size] [.documentSize d'.size] :=
    .cons (.documentSize _ _) .nil
  have hentered := (h.note hsize).enter .rendering
  obtain ⟨hnotices, hresult⟩ := rasterize_same he d d' k.request
  simp only [Service.render, hjk, hnotices, hresult]
  have hnoted := hentered.note
    (entries_refl ((s.renderer.rasterize d' s.resources k.request).notices.map .render))
  cases (s.renderer.rasterize d' s.resources k.request).result with
  | error stop =>
    cases stop with
    | fault f => exact hnoted.refuse _ _ _ _
    | crash why => exact ⟨rfl, hnoted⟩
  | ok image => exact encode_same hnoted image _ _

theorem compiled_same (he : IgnoresDocument s.renderer.engine) {t : Trail} {j k : Job}
    (h : j.SameButPasswords k) : (s.compile t j).Same (s.compile t k) := by
  have hentered := (Trail.Same.refl t).enter .compiling
  obtain ⟨notices, f, hj, hk⟩ | ⟨notices, layers, styles, thresholds, d, d', hj, hk⟩ := compile_same h
  · unfold Job.compile at hj hk
    simp only [Service.compile, hj, hk]
    exact (hentered.note (entries_refl _)).refuse _ _ _ _
  · unfold Job.compile at hj hk
    simp only [Service.compile, hj, hk, List.map_append]
    have hcompiled : List.Forall₂ Entry.SameButSize
        [.document (.compiled layers styles thresholds d.size)]
        [.document (.compiled layers styles thresholds d'.size)] := .cons (.compiled _ _ _ _ _) .nil
    exact render_same he (hentered.note (List.rel_append (entries_refl _) hcompiled)) h.request d d'

/-- Whatever passwords the layers hold, a request ends the same way, at the same stage, and leaves the
same journal but for the sizes of the document. -/
theorem handle_hides_passwords (s : Service) (he : IgnoresDocument s.renderer.engine) (p q : Params)
    (h : p.SameButPasswords q) :
    (s.handle p).outcome = (s.handle q).outcome ∧
      (s.handle p).trail.visited = (s.handle q).trail.visited ∧
      List.Forall₂ Entry.SameButSize (s.handle p).trail.journal (s.handle q).trail.journal := by
  have hsame : (s.handle p).Same (s.handle q) := by
    have hjob := Params.job_same h s.settings
    unfold Service.handle
    generalize p.job s.settings = x, q.job s.settings = y at hjob
    cases hjob with
    | error f => exact (Trail.Same.refl _).refuse _ _ _ _
    | ok hj => exact compiled_same he hj
  exact ⟨hsame.outcome, hsame.trail.visited, hsame.trail.journal⟩

end Handling

/-- One layer from a database with a password. -/
def lockedLayer (password : String) : Layer :=
  ⟨"a", "s", "x", .on, .database ⟨"postgis", "h", 5432, "d", "u", password, true, "t"⟩⟩

def lockedTile (password : String) : Params := Params.ofPairs
  [("style", "[[\"s\"]]"), ("zooms", "[]"), ("layers", Layer.written [lockedLayer password]), ("width", "2"),
    ("height", "2"), ("lon0", "0"), ("lat0", "0"), ("lon1", "1"), ("lat1", "1")]

theorem handle_hides_passwords_locked :
    (Service.blankService.handle (lockedTile "one")).outcome =
        (Service.blankService.handle (lockedTile "another")).outcome ∧
      (Service.blankService.handle (lockedTile "one")).trail.visited =
        (Service.blankService.handle (lockedTile "another")).trail.visited ∧
      List.Forall₂ Entry.SameButSize (Service.blankService.handle (lockedTile "one")).trail.journal
        (Service.blankService.handle (lockedTile "another")).trail.journal := by
  refine handle_hides_passwords Service.blankService (fun _ _ => rfl) _ _ ⟨fun name hn => ?_, ?_⟩
  · rw [lockedTile, lockedTile, Params.get?_ofPairs, Params.get?_ofPairs]
    simp [Json.lookup_cons, hn]
  · refine ⟨Layer.written [lockedLayer "one"], Layer.written [lockedLayer "another"], ?_, ?_,
      Drawing.sameButPasswords_written (.cons rfl .nil) (by decide) (by decide) (by decide) (by decide)⟩
    · rw [lockedTile, Params.get?_ofPairs]
      rfl
    · rw [lockedTile, Params.get?_ofPairs]
      rfl

end StyledMap.Request
