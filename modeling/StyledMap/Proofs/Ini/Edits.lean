import Mathlib.Logic.Relation
import StyledMap.Ini.Basic

/-! Changes to a file that no one sees who looks up known keys only: what nobody knows is put in or taken
out, and what has different names changes places. -/
namespace StyledMap.Ini

/-- One change to the entries of a section in which some keys are known. -/
inductive EntryEdit (known : String → Prop) : List (String × String) → List (String × String) → Prop where
  | add {before after : List (String × String)} {key value : String} (h : ¬ known key) :
      EntryEdit known (before ++ after) (before ++ (key, value) :: after)
  | swap {before after : List (String × String)} {a b : String × String} (h : a.1 ≠ b.1) :
      EntryEdit known (before ++ a :: b :: after) (before ++ b :: a :: after)

/-- One change to a file in which `known` tells the sections and keys that are looked up. -/
inductive Edit (known : String → String → Prop) : Ini → Ini → Prop where
  | add {before after : List Section} {s : Section} (h : ∀ key, ¬ known s.name key) :
      Edit known ⟨before ++ after⟩ ⟨before ++ s :: after⟩
  | swap {before after : List Section} {s t : Section} (h : s.name ≠ t.name) :
      Edit known ⟨before ++ s :: t :: after⟩ ⟨before ++ t :: s :: after⟩
  | entries {before after : List Section} {name : String} {es es' : List (String × String)}
      (h : EntryEdit (known name) es es') :
      Edit known ⟨before ++ ⟨name, es⟩ :: after⟩ ⟨before ++ ⟨name, es'⟩ :: after⟩

variable {known : String → String → Prop} {f g : Ini} {name key : String}

theorem lookup_cons_of_ne {es : List (String × String)} {e : String × String} (h : e.1 ≠ key) :
    (e :: es).lookup key = es.lookup key := by
  rw [List.lookup_cons, beq_eq_false_iff_ne.2 h.symm]

theorem EntryEdit.lookup {known : String → Prop} {es es' : List (String × String)}
    (h : EntryEdit known es es') (hkey : known key) : es.lookup key = es'.lookup key := by
  cases h with
  | @add before after other value hother =>
    have hne : other ≠ key := fun he => hother (he ▸ hkey)
    rw [List.lookup_append, List.lookup_append, lookup_cons_of_ne hne]
  | @swap before after a b hab =>
    rw [List.lookup_append, List.lookup_append]
    by_cases ha : a.1 = key
    · have hb : b.1 ≠ key := fun hb => hab (ha.trans hb.symm)
      subst ha
      rw [List.lookup_cons_self, lookup_cons_of_ne hb, List.lookup_cons_self]
    · rw [lookup_cons_of_ne ha, List.lookup_cons, List.lookup_cons, lookup_cons_of_ne ha]

theorem get?_append (before after : List Section) (name key : String) :
    get? ⟨before ++ after⟩ name key =
      ((before.find? (·.name = name)).or (after.find? (·.name = name))).bind
        (fun s => s.entries.lookup key) := by
  rw [get?, section?, List.find?_append]

theorem find?_cons_of_ne {ss : List Section} {s : Section} (h : s.name ≠ name) :
    (s :: ss).find? (·.name = name) = ss.find? (·.name = name) :=
  List.find?_cons_of_neg (by simpa using h)

/-- A change is not seen where it stands among what a look-up of a known key passes. -/
theorem Edit.get? (h : Edit known f g) (hkey : known name key) : f.get? name key = g.get? name key := by
  cases h with
  | @add before after s hs =>
    have hne : s.name ≠ name := fun he => hs key (he ▸ hkey)
    rw [get?_append, get?_append, find?_cons_of_ne hne]
  | @swap before after s t hst =>
    rw [get?_append, get?_append]
    by_cases hs : s.name = name
    · have ht : t.name ≠ name := fun ht => hst (hs.trans ht.symm)
      have hfound (ss : List Section) : (s :: ss).find? (·.name = name) = some s :=
        List.find?_cons_of_pos (by simpa using hs)
      rw [hfound, find?_cons_of_ne ht, hfound]
    · rw [find?_cons_of_ne hs, List.find?_cons, List.find?_cons, find?_cons_of_ne hs]
  | @entries before after other es es' h =>
    rw [get?_append, get?_append]
    by_cases hother : other = name
    · subst hother
      cases before.find? (·.name = other) with
      | none => simpa using h.lookup hkey
      | some s => rfl
    · rw [find?_cons_of_ne hother, find?_cons_of_ne hother]

/-- Any number of changes, made or undone. -/
theorem get?_of_edits (h : Relation.EqvGen (Edit known) f g) (hkey : known name key) :
    f.get? name key = g.get? name key := by
  induction h with
  | rel f g h => exact h.get? hkey
  | refl f => rfl
  | symm f g _ ih => exact ih.symm
  | trans f g h _ _ ih ih' => exact ih.trans ih'

end StyledMap.Ini
