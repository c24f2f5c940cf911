import StyledMap.Proofs.Steps

/-! Steps that stop at the first fault there is. What is wrong is a list, in the order in which the
steps would find it; they succeed exactly if the list is empty, and otherwise fail with its head. -/
namespace StyledMap.Steps
variable {ε α β : Type}

/-- Nothing is wrong and there is a result, or there is none and the first fault says why. -/
def Reports (x : Except ε α) : List ε → Prop
  | [] => ∃ a, x = .ok a
  | e :: _ => x = .error e

namespace Reports
variable {x : Except ε α} {faults more : List ε}

theorem ok_iff (h : Reports x faults) : (∃ a, x = .ok a) ↔ faults = [] := by
  cases faults with
  | nil => exact iff_of_true h rfl
  | cons e rest =>
    obtain rfl : x = .error e := h
    simp

theorem error_iff (h : Reports x faults) (e : ε) : x = .error e ↔ faults.head? = some e := by
  cases faults with
  | nil =>
    obtain ⟨a, rfl⟩ := h
    simp
  | cons e' rest =>
    obtain rfl : x = .error e' := h
    simp

theorem bind {f : α → Except ε β} (h : Reports x faults) (hf : ∀ a, x = .ok a → Reports (f a) more) :
    Reports (x >>= f) (faults ++ more) := by
  cases faults with
  | nil =>
    obtain ⟨a, rfl⟩ := h
    exact hf a rfl
  | cons e rest =>
    obtain rfl : x = .error e := h
    rfl

/-- A last step that cannot fail adds nothing to what is wrong. -/
theorem map {f : α → β} (h : Reports x faults) : Reports (x >>= fun a => .ok (f a)) faults := by
  have hlast : ∀ a, x = .ok a → Reports (.ok (f a) : Except ε β) [] := fun a _ => ⟨f a, rfl⟩
  simpa using h.bind hlast

theorem mapM {f : α → Except ε β} {faults : α → List ε} {l : List α}
    (h : ∀ a ∈ l, Reports (f a) (faults a)) : Reports (l.mapM f) (l.flatMap faults) := by
  induction l with
  | nil => exact ⟨[], rfl⟩
  | cons a l ih =>
    rw [List.forall_mem_cons] at h
    rw [List.mapM_cons, List.flatMap_cons]
    exact h.1.bind (fun b _ => (ih h.2).map)

theorem forM {f : α → Except ε Unit} {faults : α → List ε} {l : List α}
    (h : ∀ a ∈ l, Reports (f a) (faults a)) : Reports (l.forM f) (l.flatMap faults) := by
  induction l with
  | nil => exact ⟨(), rfl⟩
  | cons a l ih =>
    rw [List.forall_mem_cons] at h
    exact h.1.bind (fun _ _ => ih h.2)

end Reports

/-- The first of all faults is the first one of whatever comes first among those that have any. -/
theorem head?_flatMap {faults : α → List ε} {l : List α} {e : ε} :
    (l.flatMap faults).head? = some e ↔ ∃ before a after, l = before ++ a :: after ∧
      (∀ b ∈ before, faults b = []) ∧ (faults a).head? = some e := by
  induction l with
  | nil => simp
  | cons a l ih =>
    rw [List.flatMap_cons, exists_first_cons, ← ih]
    cases faults a with
    | nil => simp
    | cons f rest => simp

end StyledMap.Steps
