import Mathlib.Data.List.Induction
import StyledMap.Text.Blank

/-! Texts that neither start nor end with a blank: trimming leaves them alone, and every other text it
makes one, or nothing. -/
namespace StyledMap

/-- Of all ways to decide a property of a text's characters, the one that looks at these only. -/
instance (priority := high) decidableForallMem (cs : List Char) (p : Char → Prop)
    [DecidablePred p] : Decidable (∀ c ∈ cs, p c) :=
  List.decidableBAll p cs

namespace Text

/-- Blanks stand at neither end, and something stands between. -/
structure Firm (cs : List Char) : Prop where
  first : ∃ c ds, cs = c :: ds ∧ isBlank c = false
  last : ∃ ds c, cs = ds ++ [c] ∧ isBlank c = false

theorem firm_of_forall {cs : List Char} (hne : cs ≠ []) (h : ∀ c ∈ cs, isBlank c = false) : Firm cs := by
  constructor
  · obtain ⟨c, ds, rfl⟩ := List.exists_cons_of_ne_nil hne
    exact ⟨c, ds, rfl, h c List.mem_cons_self⟩
  · refine ⟨cs.dropLast, cs.getLast hne, (List.dropLast_concat_getLast hne).symm, ?_⟩
    exact h _ (List.getLast_mem hne)

/-- Whatever stands between two marks. -/
theorem firm_enclosed {start stop : Char} (hs : isBlank start = false) (he : isBlank stop = false)
    (cs : List Char) : Firm (start :: (cs ++ [stop])) :=
  ⟨⟨start, _, rfl, hs⟩, ⟨start :: cs, stop, rfl, he⟩⟩

theorem Firm.trimLeft {cs : List Char} (h : Firm cs) (ds : List Char) :
    Text.trimLeft (cs ++ ds) = cs ++ ds := by
  obtain ⟨c, cs, rfl, hc⟩ := h.first
  exact trimLeft_cons_of_not hc (cs ++ ds)

theorem Firm.trimRight {cs : List Char} (h : Firm cs) (bs ds : List Char) :
    Text.trimRight (bs ++ (cs ++ ds)) = bs ++ (cs ++ Text.trimRight ds) := by
  obtain ⟨cs, c, rfl, hc⟩ := h.last
  induction ds using List.reverseRecOn with
  | nil => simp [Text.trimRight, hc]
  | append_singleton ds d ih =>
    by_cases hd : isBlank d = true
    · rw [trimRight_append_blank hd, ← ih, ← List.append_assoc, ← List.append_assoc,
        trimRight_append_blank hd, List.append_assoc]
    · simp [Text.trimRight, hd]

theorem Firm.trim {cs : List Char} (h : Firm cs) : Text.trim cs = cs := by
  have hleft := h.trimLeft []
  have hright := h.trimRight [] []
  simp only [List.append_nil, List.nil_append, trimRight_nil] at hleft hright
  rw [Text.trim, hleft, hright]

theorem trimLeft_append {bs : List Char} (h : ∀ c ∈ bs, isBlank c = true) (cs : List Char) :
    Text.trimLeft (bs ++ cs) = Text.trimLeft cs := by
  induction bs with
  | nil => rfl
  | cons b bs ih =>
    rw [List.forall_mem_cons] at h
    rw [List.cons_append, trimLeft_cons_blank h.1, ih h.2]

theorem trimRight_append {bs : List Char} (h : ∀ c ∈ bs, isBlank c = true) (cs : List Char) :
    Text.trimRight (cs ++ bs) = Text.trimRight cs := by
  induction bs using List.reverseRecOn with
  | nil => rw [List.append_nil]
  | append_singleton bs b ih =>
    rw [List.forall_mem_append] at h
    rw [← List.append_assoc, trimRight_append_blank (h.2 b List.mem_cons_self), ih h.1]

/-- Blanks around a text are not seen by what trims it. -/
theorem trim_append {before after : List Char} (hb : ∀ c ∈ before, isBlank c = true)
    (ha : ∀ c ∈ after, isBlank c = true) (cs : List Char) :
    Text.trim (before ++ (cs ++ after)) = Text.trim cs := by
  rw [Text.trim, Text.trim, trimLeft_append hb]
  induction cs with
  | nil =>
    have hnil : Text.trimLeft after = [] := by simpa using trimLeft_append ha []
    rw [List.nil_append, hnil, trimLeft_nil]
  | cons c cs ih =>
    rw [List.cons_append]
    cases hc : isBlank c with
    | true => rwa [trimLeft_cons_blank hc, trimLeft_cons_blank hc]
    | false => rw [trimLeft_cons_of_not hc, trimLeft_cons_of_not hc, ← List.cons_append,
        trimRight_append ha]

/-- Trimming takes the blanks around a firm text. -/
theorem Firm.trim_between {cs before after : List Char} (h : Firm cs)
    (hb : ∀ c ∈ before, isBlank c = true) (ha : ∀ c ∈ after, isBlank c = true) :
    Text.trim (before ++ (cs ++ after)) = cs := by
  rw [trim_append hb ha, h.trim]

theorem trimLeft_cases (cs : List Char) :
    trimLeft cs = [] ∨ ∃ c ds, trimLeft cs = c :: ds ∧ isBlank c = false := by
  induction cs with
  | nil => exact .inl rfl
  | cons c cs ih =>
    cases hc : isBlank c with
    | true => rwa [trimLeft_cons_blank hc]
    | false => exact .inr ⟨c, cs, trimLeft_cons_of_not hc cs, hc⟩

/-- Trimming leaves nothing, or a text that has no blanks to trim. -/
theorem firm_trim {cs : List Char} (h : trim cs ≠ []) : Firm (trim cs) := by
  obtain hnil | ⟨c, ds, hleft, hc⟩ := trimLeft_cases cs
  · rw [trim, hnil] at h
    exact absurd rfl h
  · rw [trim, hleft] at h ⊢
    clear hleft
    induction ds using List.reverseRecOn with
    | nil => simpa [trimRight, hc] using firm_of_forall (List.cons_ne_nil c []) (by simpa using hc)
    | append_singleton ds d ih =>
      rw [← List.cons_append] at h ⊢
      cases hd : isBlank d with
      | true =>
        rw [trimRight_append_blank hd] at h ⊢
        exact ih h
      | false => simpa [trimRight, hd] using firm_enclosed hc hd ds

theorem firm_of_trim {cs : List Char} (hne : cs ≠ []) (h : trim cs = cs) : Firm cs := by
  have hfirm := @firm_trim cs (by rwa [h])
  rwa [h] at hfirm

theorem firm_of_nonblank? {s t : String} (h : nonblank? s = some t) : Firm t.toList := by
  unfold nonblank? at h
  split at h
  · cases h
  · rename_i hne
    obtain rfl := Option.some.inj h
    have htrim : trim s.toList ≠ [] := by
      simpa [trimmed, String.ofList_eq_empty_iff] using hne
    rw [trimmed, String.toList_ofList]
    exact firm_trim htrim

theorem Firm.nonblank? {s : String} (h : Firm s.toList) : Text.nonblank? s = some s := by
  have htrimmed : trimmed s = s := by
    rw [trimmed, h.trim, String.ofList_toList]
  have hne : s ≠ "" := by
    rintro rfl
    obtain ⟨c, cs, hcs, -⟩ := h.first
    cases hcs
  rw [Text.nonblank?, htrimmed, if_neg hne]

/-- A text that is used as it is given is the one used without its blanks only if it has none to lose. The
one used instead of it is assumed to have none. -/
theorem getD_eq_iff {other : String} (h : Firm other.toList) (given : Option String) :
    given.getD other = (given.bind Text.nonblank?).getD other ↔
      ∀ s, given = some s → Firm s.toList := by
  cases given with
  | none => simp
  | some s =>
    rw [Option.getD_some, Option.bind_some]
    constructor
    · intro hs t ht
      obtain rfl := Option.some.inj ht
      cases hn : Text.nonblank? s with
      | none =>
        rw [hn, Option.getD_none] at hs
        rwa [hs]
      | some t =>
        rw [hn, Option.getD_some] at hs
        rw [hs]
        exact firm_of_nonblank? hn
    · intro hs
      rw [(hs s rfl).nonblank?, Option.getD_some]

end Text
end StyledMap
