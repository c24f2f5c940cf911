import Mathlib.Data.List.Induction
import StyledMap.Json.Basic

/-! Members of an object, as they are given and as they count: each name once, at its first place and
with its last value. -/
namespace StyledMap.Json

structure Merges {α : Type} (given members : List (String × α)) : Prop where
  names : members.map (·.1) = (given.map (·.1)).eraseDups
  values : ∀ name, members.lookup name = given.reverse.lookup name

theorem names_put {α : Type} (ms : List (String × α)) (name : String) (a : α) :
    (put ms name a).map (·.1) =
      ms.map (·.1) ++ if name ∈ ms.map (·.1) then [] else [name] := by
  induction ms with
  | nil => rfl
  | cons m ms ih =>
    obtain ⟨n, b⟩ := m
    by_cases h : n = name
    · simp [put, h]
    · have hne : name ≠ n := Ne.symm h
      rw [put, if_neg h, List.map_cons, ih, List.map_cons, List.cons_append]
      simp only [List.mem_cons, hne, false_or]

theorem lookup_cons {α : Type} (ms : List (String × α)) (name other : String) (a : α) :
    ((name, a) :: ms).lookup other = if other = name then some a else ms.lookup other := by
  rw [List.lookup_cons]
  by_cases h : other = name
  · simp [h]
  · have hb : (other == name) = false := by simpa using h
    simp [h, hb]

theorem lookup_put {α : Type} (ms : List (String × α)) (name other : String) (a : α) :
    (put ms name a).lookup other = if other = name then some a else ms.lookup other := by
  induction ms with
  | nil => exact lookup_cons [] name other a
  | cons m ms ih =>
    obtain ⟨n, b⟩ := m
    by_cases hn : n = name
    · subst hn
      rw [put, if_pos rfl, lookup_cons, lookup_cons]
      split <;> rfl
    · rw [put, if_neg hn, lookup_cons, lookup_cons, ih]
      by_cases h : other = name
      · subst h
        rw [if_pos rfl, if_pos rfl, if_neg (Ne.symm hn)]
      · rw [if_neg h, if_neg h]

/-- Merging goes on where it stopped. -/
theorem merged_concat {α : Type} (given : List (String × α)) (name : String) (a : α) :
    merged (given ++ [(name, a)]) = put (merged given) name a := by
  simp [merged]

theorem merges_merged {α : Type} (given : List (String × α)) : Merges given (merged given) := by
  induction given using List.reverseRecOn with
  | nil => exact ⟨rfl, fun _ => rfl⟩
  | append_singleton given m ih =>
    obtain ⟨name, a⟩ := m
    rw [merged_concat]
    constructor
    · rw [names_put, ih.names, List.map_append, List.eraseDups_append]
      congr 1
      by_cases h : name ∈ given.map (·.1) <;> simp [List.removeAll, List.eraseDups_cons, h]
    · intro other
      rw [lookup_put, ih.values, List.reverse_append, List.reverse_singleton, List.singleton_append,
        lookup_cons]

theorem nodup_merged {α : Type} (given : List (String × α)) : ((merged given).map (·.1)).Nodup := by
  induction given using List.reverseRecOn with
  | nil => exact List.nodup_nil
  | append_singleton given m ih =>
    rw [merged_concat, names_put]
    split
    · rwa [List.append_nil]
    · rename_i h
      refine List.nodup_append.2 ⟨ih, List.nodup_cons.2 ⟨List.not_mem_nil, List.nodup_nil⟩, ?_⟩
      intro a ha b hb hab
      obtain rfl := List.mem_singleton.1 hb
      exact h (hab ▸ ha)

theorem lookup_eq_none {α : Type} {ms : List (String × α)} {name : String}
    (h : name ∉ ms.map (·.1)) : ms.lookup name = none := by
  rw [List.lookup_eq_none_iff]
  intro m hm
  have hne : name ≠ m.1 := by
    rintro rfl
    exact h (List.mem_map_of_mem hm)
  simpa using hne

theorem mem_of_lookup {α : Type} {ms : List (String × α)} {name : String} {a : α}
    (h : ms.lookup name = some a) : (name, a) ∈ ms := by
  induction ms with
  | nil => cases h
  | cons m ms ih =>
    rw [lookup_cons] at h
    split at h
    · rename_i he
      obtain rfl := Option.some.inj h
      exact he ▸ List.mem_cons_self
    · exact List.mem_cons_of_mem _ (ih h)

/-- With each name once, the member of a name is its value. -/
theorem lookup_of_mem {α : Type} {ms : List (String × α)} {name : String} {a : α}
    (hd : (ms.map (·.1)).Nodup) (h : (name, a) ∈ ms) : ms.lookup name = some a := by
  induction ms with
  | nil => cases h
  | cons m ms ih =>
    obtain ⟨other, b⟩ := m
    obtain ⟨hnot, hd⟩ := List.nodup_cons.1 hd
    rw [lookup_cons]
    obtain he | hmem := List.mem_cons.1 h
    · obtain ⟨rfl, rfl⟩ := Prod.mk.inj he
      exact if_pos rfl
    · have hne : name ≠ other := fun he => hnot (he ▸ List.mem_map_of_mem (f := (·.1)) hmem)
      rw [if_neg hne]
      exact ih hd hmem

/-- The order of members does not matter where each name stands once. -/
theorem lookup_perm {α : Type} {ms ns : List (String × α)} (h : ms.Perm ns)
    (hd : (ms.map (·.1)).Nodup) (name : String) : ms.lookup name = ns.lookup name := by
  have hd' : (ns.map (·.1)).Nodup := (h.map (·.1)).nodup_iff.1 hd
  refine Option.ext (fun a => ⟨fun ha => ?_, fun ha => ?_⟩)
  · exact lookup_of_mem hd' (h.mem_iff.1 (mem_of_lookup ha))
  · exact lookup_of_mem hd (h.mem_iff.2 (mem_of_lookup ha))

/-- Members with the same names, each once, and the same values are the same. -/
theorem eq_of_lookup {α : Type} {ms ns : List (String × α)} (hd : (ms.map (·.1)).Nodup)
    (hn : ms.map (·.1) = ns.map (·.1)) (h : ∀ name, ms.lookup name = ns.lookup name) : ms = ns := by
  induction ms generalizing ns with
  | nil => simpa using hn.symm
  | cons m ms ih =>
    cases ns with
    | nil => simp at hn
    | cons n ns =>
      obtain ⟨name, a⟩ := m
      obtain ⟨name', b⟩ := n
      obtain ⟨rfl, htail⟩ := List.cons.inj hn
      obtain ⟨hnot, hd⟩ := List.nodup_cons.1 hd
      have hhead := h name
      rw [lookup_cons, lookup_cons, if_pos rfl, if_pos rfl] at hhead
      obtain rfl := Option.some.inj hhead
      have hrest : ms = ns := by
        refine ih hd htail (fun other => ?_)
        have ho := h other
        rw [lookup_cons, lookup_cons] at ho
        by_cases he : other = name
        · subst he
          rw [lookup_eq_none hnot, lookup_eq_none (htail ▸ hnot)]
        · rwa [if_neg he, if_neg he] at ho
      rw [hrest]

theorem merges_iff {α : Type} {given ms : List (String × α)} :
    Merges given ms ↔ ms = merged given := by
  constructor
  · intro h
    have hm := merges_merged given
    refine (eq_of_lookup (nodup_merged given) (hm.names.trans h.names.symm) (fun name => ?_)).symm
    rw [hm.values, h.values]
  · rintro rfl
    exact merges_merged given

theorem mem_put {α : Type} {ms : List (String × α)} {name : String} {a : α} {m : String × α}
    (h : m ∈ put ms name a) : m ∈ ms ∨ m = (name, a) := by
  induction ms with
  | nil => exact .inr (List.mem_singleton.1 h)
  | cons n ms ih =>
    obtain ⟨other, b⟩ := n
    rw [put] at h
    split at h
    · rename_i he
      subst he
      rcases List.mem_cons.1 h with rfl | h
      · exact .inr rfl
      · exact .inl (List.mem_cons_of_mem _ h)
    · rcases List.mem_cons.1 h with rfl | h
      · exact .inl List.mem_cons_self
      · exact (ih h).imp_left (List.mem_cons_of_mem _)

theorem mem_of_mem_merged {α : Type} {given : List (String × α)} {m : String × α}
    (h : m ∈ merged given) : m ∈ given := by
  induction given using List.reverseRecOn with
  | nil => exact h
  | append_singleton given n ih =>
    obtain ⟨name, a⟩ := n
    rw [merged_concat] at h
    rcases mem_put h with h | rfl
    · exact List.mem_append_left _ (ih h)
    · exact List.mem_append_right _ List.mem_cons_self

theorem put_of_notMem {α : Type} {ms : List (String × α)} {name : String} (a : α)
    (h : name ∉ ms.map (·.1)) : put ms name a = ms ++ [(name, a)] := by
  induction ms with
  | nil => rfl
  | cons m ms ih =>
    obtain ⟨other, b⟩ := m
    rw [List.map_cons, List.mem_cons, not_or] at h
    rw [put, if_neg (Ne.symm h.1), ih h.2, List.cons_append]

/-- Members with each name once are merged already. -/
theorem merged_of_nodup {α : Type} {ms : List (String × α)} (h : (ms.map (·.1)).Nodup) :
    merged ms = ms := by
  induction ms using List.reverseRecOn with
  | nil => rfl
  | append_singleton ms m ih =>
    obtain ⟨name, a⟩ := m
    rw [List.map_append, List.nodup_append] at h
    have hnot : name ∉ ms.map (·.1) := fun hmem => h.2.2 name hmem name List.mem_cons_self rfl
    rw [merged_concat, ih h.1, put_of_notMem a hnot]

end StyledMap.Json
