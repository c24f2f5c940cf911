import Mathlib.Data.List.Forall2

/-! Steps that can fail, one after the other: what a success of all of them says of each, and what a
failure of one of them can be. -/
namespace StyledMap.Steps
variable {ε α β : Type}

theorem bind_eq_ok {x : Except ε α} {f : α → Except ε β} {b : β} :
    (x >>= f) = .ok b ↔ ∃ a, x = .ok a ∧ f a = .ok b := by
  cases x with
  | error e =>
    constructor
    · intro h
      cases h
    · rintro ⟨a, h, -⟩
      cases h
  | ok a =>
    constructor
    · intro h
      exact ⟨a, rfl, h⟩
    · rintro ⟨a', h, hf⟩
      obtain rfl := Except.ok.inj h
      exact hf

theorem bind_eq_error {x : Except ε α} {f : α → Except ε β} {e : ε} :
    (x >>= f) = .error e ↔ x = .error e ∨ ∃ a, x = .ok a ∧ f a = .error e := by
  cases x with
  | error e' => simp [bind, Except.bind]
  | ok a => simp [bind, Except.bind]

theorem pure_eq_ok {a b : α} : (pure a : Except ε α) = .ok b ↔ a = b :=
  ⟨Except.ok.inj, fun h => by rw [h]; rfl⟩

theorem exists_of_isOk {x : Except ε α} (h : x.isOk = true) : ∃ a, x = .ok a := by
  cases x with
  | error e => cases h
  | ok a => exact ⟨a, rfl⟩

theorem mapError_eq_ok {δ : Type} {x : Except ε α} {f : ε → δ} {a : α} :
    x.mapError f = .ok a ↔ x = .ok a := by
  cases x <;> simp [Except.mapError]

theorem map_eq_error {x : Except ε α} {f : α → β} {e : ε} : x.map f = .error e ↔ x = .error e := by
  cases x <;> simp [Except.map]

theorem mapError_eq_error {δ : Type} {x : Except ε α} {f : ε → δ} {d : δ} :
    x.mapError f = .error d ↔ ∃ e, x = .error e ∧ f e = d := by
  cases x <;> simp [Except.mapError]

/-- Steps fail as their checks do: the first one, and then the others. -/
theorem map_bind {x : Except ε α} {k : α → Except ε β} {rest : Except ε Unit}
    (h : ∀ a, x = .ok a → (k a).map (fun _ => ()) = rest) :
    (x >>= k).map (fun _ => ()) = (x.map (fun _ => ()) >>= fun _ => rest) := by
  cases x with
  | error e => rfl
  | ok a => exact h a rfl

theorem map_bind_unit {x : Except ε Unit} {k : Unit → Except ε β} {rest : Except ε Unit}
    (h : (k ()).map (fun _ => ()) = rest) : (x >>= k).map (fun _ => ()) = (x >>= fun _ => rest) := by
  cases x with
  | error e => rfl
  | ok u => exact h

/-- A list of results is made of one result for each member, in order. -/
theorem mapM_eq_ok {f : α → Except ε β} {l : List α} {r : List β} :
    l.mapM f = .ok r ↔ List.Forall₂ (fun a b => f a = .ok b) l r := by
  induction l generalizing r with
  | nil => cases r <;> simp [pure, Except.pure]
  | cons a l ih =>
    rw [List.mapM_cons, bind_eq_ok]
    constructor
    · rintro ⟨b, hb, h⟩
      obtain ⟨bs, hbs, h⟩ := bind_eq_ok.1 h
      obtain rfl := pure_eq_ok.1 h
      exact .cons hb (ih.1 hbs)
    · intro h
      cases h with
      | cons hb hbs => exact ⟨_, hb, bind_eq_ok.2 ⟨_, ih.2 hbs, rfl⟩⟩

/-- A list of results is found member by member. -/
theorem mapM_of_forall₂ {f : α → Except ε β} {R : α → β → Prop} {l : List α} {r : List β}
    (h : List.Forall₂ R l r) (hf : ∀ b ∈ r, ∀ a, R a b → f a = .ok b) : l.mapM f = .ok r := by
  rw [mapM_eq_ok]
  induction h with
  | nil => exact .nil
  | cons hab _ ih =>
    rw [List.forall_mem_cons] at hf
    exact .cons (hf.1 _ hab) (ih hf.2)

/-- What is made one by one of a list is as it should be if each of it is. -/
theorem forall_of_mapM {f : α → Except ε β} {P : β → Prop} {l : List α} {r : List β}
    (h : l.mapM f = .ok r) (hf : ∀ a ∈ l, ∀ b, f a = .ok b → P b) : ∀ b ∈ r, P b := by
  rw [mapM_eq_ok] at h
  induction h with
  | nil => simp
  | cons hb _ ih =>
    rw [List.forall_mem_cons] at hf
    exact List.forall_mem_cons.2 ⟨hf.1 _ hb, ih hf.2⟩

theorem exists_of_mapM {f : α → Except ε β} {l : List α} {r : List β} (h : l.mapM f = .ok r) {a : α}
    (ha : a ∈ l) : ∃ b, f a = .ok b := by
  rw [mapM_eq_ok] at h
  induction h with
  | nil => cases ha
  | @cons c b l r hb _ ih =>
    obtain rfl | ha := List.mem_cons.1 ha
    · exact ⟨b, hb⟩
    · exact ih ha

theorem map_eq_of_mapM {γ : Type} {f : α → Except ε β} {g : β → γ} {k : α → γ} {l : List α}
    {r : List β} (h : l.mapM f = .ok r) (hf : ∀ a b, f a = .ok b → g b = k a) :
    r.map g = l.map k := by
  rw [mapM_eq_ok] at h
  induction h with
  | nil => rfl
  | cons hb _ ih => rw [List.map_cons, List.map_cons, hf _ _ hb, ih]

theorem forM_eq_ok {f : α → Except ε Unit} {l : List α} :
    l.forM f = .ok () ↔ ∀ a ∈ l, f a = .ok () := by
  induction l with
  | nil => simp [List.forM, pure, Except.pure]
  | cons a l ih =>
    change (f a >>= fun _ => l.forM f) = .ok () ↔ _
    rw [bind_eq_ok, List.forall_mem_cons, ← ih]
    constructor
    · rintro ⟨⟨⟩, h⟩
      exact h
    · intro h
      exact ⟨(), h⟩

/-- Of a longer list, the first that does not pass is its head or the first of the rest. -/
theorem exists_first_cons {Pass Stop : α → Prop} {a : α} {l : List α} :
    (∃ before b after, a :: l = before ++ b :: after ∧ (∀ c ∈ before, Pass c) ∧ Stop b) ↔
      Stop a ∨ Pass a ∧ ∃ before b after, l = before ++ b :: after ∧ (∀ c ∈ before, Pass c) ∧ Stop b := by
  constructor
  · rintro ⟨before, b, after, hl, hbefore, hb⟩
    cases before with
    | nil =>
      obtain ⟨rfl, rfl⟩ := List.cons.inj hl
      exact .inl hb
    | cons c before =>
      obtain ⟨rfl, rfl⟩ := List.cons.inj hl
      obtain ⟨ha, hbefore⟩ := List.forall_mem_cons.1 hbefore
      exact .inr ⟨ha, before, b, after, rfl, hbefore, hb⟩
  · rintro (h | ⟨ha, before, b, after, rfl, hbefore, hb⟩)
    · exact ⟨[], a, l, rfl, List.forall_mem_nil _, h⟩
    · exact ⟨a :: before, b, after, rfl, List.forall_mem_cons.2 ⟨ha, hbefore⟩, hb⟩

/-- Checks in order fail with the first fault there is. -/
theorem forM_eq_error {f : α → Except ε Unit} {l : List α} {e : ε} :
    l.forM f = .error e ↔
      ∃ before a after, l = before ++ a :: after ∧ (∀ b ∈ before, f b = .ok ()) ∧ f a = .error e := by
  induction l with
  | nil => simp [List.forM, pure, Except.pure]
  | cons a l ih =>
    change (f a >>= fun _ => l.forM f) = .error e ↔ _
    rw [bind_eq_error, ih, exists_first_cons]
    refine or_congr_right ⟨?_, fun h => ⟨(), h⟩⟩
    rintro ⟨⟨⟩, h⟩
    exact h

/-- Both fail with the same fault, or both succeed with results in relation. -/
inductive Agree {γ : Type} (R : α → γ → Prop) : Except ε α → Except ε γ → Prop where
  | error (e : ε) : Agree R (.error e) (.error e)
  | ok {a : α} {c : γ} (h : R a c) : Agree R (.ok a) (.ok c)

section Agree
variable {γ δ : Type} {R : α → γ → Prop} {S : β → δ → Prop}

theorem Agree.refl {R : α → α → Prop} (h : ∀ a, R a a) (x : Except ε α) : Agree R x x := by
  cases x with
  | error e => exact .error e
  | ok a => exact .ok (h a)

theorem Agree.bind {x : Except ε α} {y : Except ε γ} {f : α → Except ε β} {g : γ → Except ε δ}
    (h : Agree R x y) (hf : ∀ a c, R a c → Agree S (f a) (g c)) : Agree S (x >>= f) (y >>= g) := by
  cases h with
  | error e => exact .error e
  | ok h => exact hf _ _ h

theorem Agree.bind_self (x : Except ε α) {f : α → Except ε β} {g : α → Except ε δ}
    (hf : ∀ a, Agree S (f a) (g a)) : Agree S (x >>= f) (x >>= g) := by
  cases x with
  | error e => exact .error e
  | ok a => exact hf a

theorem Agree.mapError {ε' : Type} {x : Except ε α} {y : Except ε γ} (h : Agree R x y) (k : ε → ε') :
    Agree R (x.mapError k) (y.mapError k) := by
  cases h with
  | error e => exact .error (k e)
  | ok h => exact .ok h

theorem Agree.mapM {f : α → Except ε β} {g : γ → Except ε δ} {l : List α} {r : List γ}
    (h : List.Forall₂ (fun a c => Agree S (f a) (g c)) l r) :
    Agree (List.Forall₂ S) (l.mapM f) (r.mapM g) := by
  induction h with
  | nil => exact .ok .nil
  | cons ha _ ih =>
    rw [List.mapM_cons, List.mapM_cons]
    exact ha.bind (fun b d hb => ih.bind (fun bs ds hbs => .ok (.cons hb hbs)))

theorem forM_same {f : α → Except ε Unit} {g : γ → Except ε Unit} {l : List α} {r : List γ}
    (h : List.Forall₂ (fun a c => f a = g c) l r) : l.forM f = r.forM g := by
  induction h with
  | nil => rfl
  | @cons a c l r ha _ ih =>
    change (f a >>= fun _ => l.forM f) = (g c >>= fun _ => r.forM g)
    rw [ha, ih]

end Agree

/-- Whatever goes wrong, `P` holds of it. -/
def Fails (P : ε → Prop) (x : Except ε α) : Prop := ∀ e, x = .error e → P e

theorem Fails.ok {P : ε → Prop} (a : α) : Fails P (.ok a) := by
  intro e h
  cases h

theorem Fails.error {P : ε → Prop} {e : ε} (h : P e) : Fails P (.error e : Except ε α) := by
  intro e' he
  obtain rfl := Except.error.inj he
  exact h

theorem Fails.bind {P : ε → Prop} {x : Except ε α} {f : α → Except ε β} (hx : Fails P x)
    (hf : ∀ a, Fails P (f a)) : Fails P (x >>= f) := by
  intro e h
  cases x with
  | error e' => exact hx e (by cases h; rfl)
  | ok a => exact hf a e h

theorem Fails.mapError {δ : Type} {P : δ → Prop} {f : ε → δ} (hf : ∀ e, P (f e))
    (x : Except ε α) : Fails P (x.mapError f) := by
  cases x with
  | error e => exact .error (hf e)
  | ok a => exact .ok a

end StyledMap.Steps
