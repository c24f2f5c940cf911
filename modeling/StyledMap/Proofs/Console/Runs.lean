import StyledMap.Console.Session
import StyledMap.Proofs.Files.Growth
import StyledMap.Proofs.Steps
import StyledMap.Proofs.Text.Bytes

/-! Runs of actions on a session. An action that reaches a result has reached one after each of its steps,
so what a command has done is read off its steps, from the first to the last. -/
namespace StyledMap.Console
open Files (Tree Place)

/-- What an access does to a state, and what comes of it. -/
def step {σ α : Type} (act : StateM σ α) (s : σ) : α × σ := act.run s

theorem step_bind {σ α β : Type} (act : StateM σ α) (f : α → StateM σ β) (s : σ) :
    step (act >>= f) s = step (f (step act s).1) (step act s).2 := rfl

/-- The action comes from one session to another, with a result and without a fault. -/
def Reaches {α : Type} (a : Action (StateM Session) α) (s : Session) (x : α) (s' : Session) : Prop :=
  step a.run s = (.ok x, s')

section
variable {α β ε : Type} {s s' : Session}

theorem reaches_bind {a : Action (StateM Session) α} {f : α → Action (StateM Session) β} {y : β} :
    Reaches (a >>= f) s y s' ↔ ∃ x s₁, Reaches a s x s₁ ∧ Reaches (f x) s₁ y s' := by
  have hbind : step (a >>= f).run s = match step a.run s with
      | (.ok x, s₁) => step (f x).run s₁
      | (.error e, s₁) => (.error e, s₁) := by
    change step (ExceptT.bindCont f (step a.run s).1) (step a.run s).2 = _
    rcases step a.run s with ⟨_ | x, s₁⟩ <;> rfl
  unfold Reaches
  rw [hbind]
  rcases step a.run s with ⟨_ | x, s₁⟩
  · simp
  · simp

theorem reaches_pure {x y : α} : Reaches (pure x) s y s' ↔ x = y ∧ s = s' := by
  change ((.ok x, s) : Except Fault α × Session) = (.ok y, s') ↔ _
  simp

theorem reaches_attempt {act : StateM Session (Except ε α)} {fault : ε → Fault} {x : α} :
    Reaches (attempt act fault) s x s' ↔ step act s = (.ok x, s') := by
  have hattempt : step (attempt act fault).run s = ((step act s).1.mapError fault, (step act s).2) := rfl
  unfold Reaches
  rw [hattempt]
  rcases step act s with ⟨_ | y, s₁⟩ <;> simp [Except.mapError]

theorem reaches_conclude {r : Except ε α} {fault : ε → Fault} {x : α} :
    Reaches (conclude r fault) s x s' ↔ r = .ok x ∧ s = s' := by
  rw [conclude, reaches_attempt]
  change ((r, s) : Except ε α × Session) = (.ok x, s') ↔ _
  simp

end

/-- What reading a text from a tree gives. -/
def textAt (t : Tree) (p : Path) : Except Files.Fault String :=
  match t.read p with
  | .error f => .error f
  | .ok bytes => match String.fromUTF8? bytes with
    | some text => .ok text
    | none => .error .notText

theorem textAt_eq_ok {t : Tree} {p : Path} {text : String} :
    textAt t p = .ok text ↔ t.read p = .ok text.toUTF8 := by
  unfold textAt
  cases t.read p with
  | error f => simp
  | ok bytes =>
    rw [Except.ok.injEq, ← Text.fromUTF8?_eq_some]
    dsimp only
    cases String.fromUTF8? bytes <;> simp

/-- The settings that a tree holds for a home directory, or for none. -/
def settingsAt (t : Tree) (home : Option Path) : Except Settings.Fault Settings :=
  let file := Settings.location home
  if t.isThere file then
    match textAt t file with
    | .ok text => Settings.ofText home text
    | .error f => .error (.unreadable f.message)
  else .ok (Settings.default home)

/-- Looking at files is looking at a tree in the state, and changes nothing. -/
structure Views {σ : Type} (a : Files.Access (StateM σ)) (view : σ → Tree) : Prop where
  isThere : ∀ p s, step (a.isThere p) s = ((view s).isThere p, s)
  read : ∀ p s, step (a.read p) s = ((view s).read p, s)

theorem views_tree : Views Files.treeAccess id := ⟨fun _ _ => rfl, fun _ _ => rfl⟩

theorem views_session : Views Session.files Session.tree := ⟨fun _ _ => rfl, fun _ _ => rfl⟩

section
variable {σ : Type} {a : Files.Access (StateM σ)} {view : σ → Tree}

theorem Views.readText (h : Views a view) (p : Path) (s : σ) :
    step (a.readText p) s = (textAt (view s) p, s) := by
  rw [Files.Access.readText, step_bind, h.read, textAt]
  dsimp only
  cases (view s).read p with
  | error f => rfl
  | ok bytes =>
    dsimp only
    cases String.fromUTF8? bytes <;> rfl

theorem Views.load (h : Views a view) (home : Option Path) (s : σ) :
    step (Settings.load a home (Settings.location home)) s = (settingsAt (view s) home, s) := by
  rw [Settings.load, step_bind, h.isThere, settingsAt]
  dsimp only
  cases (view s).isThere (Settings.location home) with
  | false => rfl
  | true =>
    rw [if_pos rfl, if_pos rfl, step_bind, h.readText]
    dsimp only
    cases textAt (view s) (Settings.location home) <;> rfl

end

/-- Nothing is printed and nothing is lost; at most one file is rewritten. -/
structure Quiet (written : Place) (s s' : Session) : Prop where
  printed : s'.printed = s.printed
  grows : Tree.Grows written s.tree s'.tree

theorem Quiet.refl (written : Place) (s : Session) : Quiet written s s := ⟨rfl, .refl written s.tree⟩

theorem Quiet.trans {written : Place} {s s' s'' : Session} (h : Quiet written s s')
    (h' : Quiet written s' s'') : Quiet written s s'' :=
  ⟨h'.printed.trans h.printed, h.grows.trans h'.grows⟩

/-- An access is silent if it is quiet from every session on. -/
def Silent {α : Type} (written : Place) (act : StateM Session α) : Prop :=
  ∀ s, Quiet written s (step act s).2

section
variable {α β : Type} {written : Place}

theorem Silent.quiet {act : StateM Session α} {s s' : Session} {x : α} (h : Silent written act)
    (hs : step act s = (x, s')) : Quiet written s s' := by
  have hquiet := h s
  rwa [hs] at hquiet

theorem silent_pure (x : α) : Silent written (pure x) := fun s => .refl written s

theorem Silent.bind {act : StateM Session α} {f : α → StateM Session β} (h : Silent written act)
    (hf : ∀ x, Silent written (f x)) : Silent written (act >>= f) :=
  fun s => (h s).trans (hf (step act s).1 (step act s).2)

theorem silent_makeDirectory (p : Path) : Silent written (Session.files.makeDirectory p) := by
  intro s
  have hstep : (step (Session.files.makeDirectory p) s).2 =
      ⟨(s.tree.settle (s.tree.makeDirectory p)).2, s.printed⟩ := rfl
  rw [hstep]
  cases h : s.tree.makeDirectory p with
  | error f => exact .refl written s
  | ok t => exact ⟨rfl, Tree.makeDirectory_grows written h⟩

/-- A directory that could not be made may be there already. -/
theorem silent_unlessThere (p : Path) (f : Files.Fault) : Silent written
    (Session.files.isDirectory p >>= fun there =>
      if there then pure (.ok ()) else pure (.error f : Except Files.Fault Unit)) := by
  refine Silent.bind (fun s => .refl written s) fun there => ?_
  cases there <;> exact silent_pure _

theorem silent_makeOnce (p : Path) : Silent written (Session.files.makeOnce p) := by
  refine (silent_makeDirectory p).bind fun made => ?_
  cases made with
  | ok => exact silent_pure _
  | error f => exact silent_unlessThere p f

theorem silent_makeWithin (ps : List Path) : Silent written (Session.files.makeWithin ps) := by
  induction ps with
  | nil => exact silent_pure _
  | cons p around ih =>
    unfold Files.Access.makeWithin
    by_cases hp : p.text = ""
    · rw [if_pos hp]
      exact silent_pure _
    · rw [if_neg hp]
      refine (silent_makeDirectory p).bind fun made => ?_
      cases made with
      | ok => exact silent_pure _
      | error f =>
        cases f with
        | notFound =>
          refine ih.bind fun made => ?_
          cases made with
          | ok => exact silent_makeOnce p
          | error f => exact silent_pure _
        | _ => exact silent_unlessThere p _

end

section
variable {library : String → Render.Library} {home : Option Path} {s s' : Session}

theorem step_write {p : Path} {bytes : ByteArray} {u : Unit}
    (h : step (Session.files.write p bytes) s = (.ok u, s')) :
    s'.printed = s.printed ∧ s.tree.writeWith p (fun _ => bytes) = .ok s'.tree := by
  have hstep : step (Session.files.write p bytes) s =
      ((s.tree.settle (s.tree.writeWith p (fun _ => bytes))).1,
        ⟨(s.tree.settle (s.tree.writeWith p (fun _ => bytes))).2, s.printed⟩) := rfl
  rw [hstep] at h
  cases hw : s.tree.writeWith p (fun _ => bytes) with
  | error f => simp [hw, Tree.settle] at h
  | ok t =>
    obtain ⟨-, rfl⟩ : u = () ∧ (⟨t, s.printed⟩ : Session) = s' := by simpa [hw, Tree.settle] using h
    exact ⟨rfl, rfl⟩

theorem log_start {file : Path} {debug : Bool} {log : Log}
    (h : Reaches (Log.start (Session.world library home) file debug) s log s') :
    ∃ place, Quiet place s s' ∧ s'.tree.Holds log.file place ByteArray.empty := by
  obtain ⟨⟨⟩, s₁, hmade, h⟩ := reaches_bind.1 h
  obtain ⟨⟨⟩, s₂, hwritten, h⟩ := reaches_bind.1 h
  obtain ⟨rfl, rfl⟩ := reaches_pure.1 h
  obtain ⟨hprinted, hwrite⟩ := step_write (reaches_attempt.1 hwritten)
  obtain ⟨place, -, hgrows, hholds⟩ := Tree.writeWith_holds hwrite
  have hquiet : Quiet place s s₁ := (silent_makeWithin _).quiet (reaches_attempt.1 hmade)
  exact ⟨place, hquiet.trans ⟨hprinted, hgrows⟩, hholds⟩

/-- An entry changes the log or nothing, and never fails. -/
theorem reaches_enter {log : Log} {level : Journal.Level} {text : String} {u : Unit} :
    Reaches (log.enter (Session.world library home) level text) s u s' ↔
      s' = if log.threshold.weight ≤ level.weight then
        ⟨(s.tree.settle (s.tree.writeWith log.file (· ++ (logLine level text).toUTF8))).2, s.printed⟩
      else s := by
  unfold Log.enter
  split
  · have hstep (file : Path) (bytes : ByteArray) : step (do
        let _ ← (Session.world library home).files.append file bytes :
          Action (StateM Session) Unit).run s =
        (.ok (), ⟨(s.tree.settle (s.tree.writeWith file (· ++ bytes))).2, s.printed⟩) := rfl
    rw [Reaches, hstep]
    simp [eq_comm]
  · rw [reaches_pure]
    simp [eq_comm]

/-- An entry that counts is written behind those that are there. -/
theorem log_enter {log : Log} {level : Journal.Level} {text : String} {u : Unit} {place : Place}
    {bytes : ByteArray} (hlevel : log.threshold.weight ≤ level.weight)
    (hlog : s.tree.Holds log.file place bytes)
    (h : Reaches (log.enter (Session.world library home) level text) s u s') :
    Quiet place s s' ∧ s'.tree.Holds log.file place (bytes ++ (logLine level text).toUTF8) := by
  rw [reaches_enter, if_pos hlevel] at h
  obtain ⟨t, hwrite, hgrows, hholds⟩ :=
    hlog.writeWith (· ++ (logLine level text).toUTF8)
  rw [hwrite] at h
  subst h
  exact ⟨⟨rfl, hgrows⟩, hholds⟩

theorem reaches_readInput {p : Path} {text : String} :
    Reaches (readInput (Session.world library home) p) s text s' ↔
      s = s' ∧ s.tree.read p = .ok text.toUTF8 := by
  rw [readInput, reaches_attempt]
  change step (Session.files.readText p) s = _ ↔ _
  rw [views_session.readText, ← textAt_eq_ok, Prod.mk.injEq, and_comm]

end

end StyledMap.Console
