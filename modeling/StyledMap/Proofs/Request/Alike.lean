import StyledMap.Proofs.Json.Members
import StyledMap.Proofs.Request.Parameters
import StyledMap.Proofs.Text.Firm
import StyledMap.Request.Pool

/-! Parameters that come to the same request. However they were put together, only the values that stand
in the end count, of the names that are looked at, and without the blanks around them. -/
namespace StyledMap.Request

/-- A way parameters come about: all anew from pairs or from a JSON text, or with one value set. -/
inductive Change where
  | collect (pairs : List (String × String))
  | read (json : String)
  | set (name value : String)

namespace Params
variable {p q : Params}

/-- What counts of a parameter. One that is missing is as good as blank. -/
def value (p : Params) (name : String) : String := Text.trimmed ((p.get? name).getD "")

/-- The same values for the names in question. -/
def AgreeOn (asked : String → Prop) (p q : Params) : Prop :=
  ∀ name, asked name → p.value name = q.value name

/-- A text that gives no parameters leaves those there are. -/
def apply (p : Params) : Change → Params
  | .collect pairs => ofPairs pairs
  | .read json => match ofJson json with
    | .ok q => q
    | .error _ => p
  | .set name value => p.set name value

def built (changes : List Change) : Params := changes.foldl apply empty

/-- Whoever handles the request finds out the same, at once or step by step. -/
structure SameOutcome (p q : Params) : Prop where
  job : ∀ s, p.job s = q.job s
  handled : ∀ s : Service, s.handle p = s.handle q
  answered : ∀ s : Service, s.handleWithin p = s.handleWithin q
  advanced : ∀ (s : Service) (phase : Phase), s.advance? p phase = s.advance? q phase

theorem given?_eq_value (p : Params) (name : String) :
    p.given? name = if p.value name = "" then none else some (p.value name) := by
  unfold given? value Text.nonblank?
  cases p.get? name with
  | none => rfl
  | some text => rfl

theorem AgreeOn.given (h : AgreeOn (· ∈ names) p q) {name : String} (hn : name ∈ names) :
    p.given? name = q.given? name := by
  rw [given?_eq_value, given?_eq_value, h name hn]

theorem AgreeOn.sameOutcome (h : AgreeOn (· ∈ names) p q) : SameOutcome p q := by
  have hjob : ∀ s, p.job s = q.job s := job_of_given p (fun _ hn => h.given hn)
  have hhandled : ∀ s : Service, s.handle p = s.handle q := by
    intro s
    unfold Service.handle
    rw [hjob]
  refine ⟨hjob, hhandled, fun s => ?_, fun s phase => ?_⟩
  · unfold Service.handleWithin
    rw [hhandled]
  · cases phase with
    | queued => simp only [Service.advance?, hjob]
    | _ => rfl

section AgreeOn
variable {asked : String → Prop} {name other text : String}

theorem AgreeOn.refl (p : Params) : AgreeOn asked p p := fun _ _ => rfl

theorem AgreeOn.symm (h : AgreeOn asked p q) : AgreeOn asked q p := fun name hn => (h name hn).symm

theorem agreeOn_of_get? (h : ∀ name, asked name → p.get? name = q.get? name) : AgreeOn asked p q := by
  intro name hn
  unfold value
  rw [h name hn]

/-- A value that is set is all that counts under its name. -/
theorem AgreeOn.set (h : AgreeOn (fun n => asked n ∧ n ≠ name) p q)
    (ht : Text.trimmed text = Text.trimmed other) :
    AgreeOn asked (p.set name text) (q.set name other) := by
  intro n hn
  by_cases he : n = name
  · subst he
    simpa only [value, get?_set_self, Option.getD_some] using ht
  · simpa only [value, get?_set_of_ne he] using h n ⟨hn, he⟩

/-- A value under another name is not looked at. -/
theorem agreeOn_set (p : Params) (hn : ¬asked name) : AgreeOn asked (p.set name text) p :=
  agreeOn_of_get? fun n ha => get?_set_of_ne (fun he : n = name => hn (he ▸ ha)) p text

theorem AgreeOn.mono {fewer : String → Prop} (h : AgreeOn asked p q) (hf : ∀ n, fewer n → asked n) :
    AgreeOn fewer p q :=
  fun n hn => h n (hf n hn)

/-- Parameters that agree still do after the same change. -/
theorem AgreeOn.apply (h : AgreeOn asked p q) (c : Change) : AgreeOn asked (p.apply c) (q.apply c) := by
  cases c with
  | collect pairs => exact AgreeOn.refl (ofPairs pairs)
  | read json =>
    simp only [Params.apply]
    cases ofJson json with
    | ok r => exact AgreeOn.refl r
    | error f => exact h
  | set name text => exact AgreeOn.set (h.mono fun _ hn => hn.1) rfl

theorem AgreeOn.foldl (h : AgreeOn asked p q) (changes : List Change) :
    AgreeOn asked (changes.foldl Params.apply p) (changes.foldl Params.apply q) := by
  induction changes generalizing p q with
  | nil => exact h
  | cons c changes ih => exact ih (h.apply c)

end AgreeOn

theorem built_append (changes more : List Change) :
    built (changes ++ more) = more.foldl apply (built changes) :=
  List.foldl_append

/-- Collecting further pairs is setting them one by one. -/
theorem ofPairs_append (first more : List (String × String)) : ofPairs (first ++ more) =
    (more.map (fun pair => Change.set pair.1 pair.2)).foldl apply (ofPairs first) := by
  rw [ofPairs, List.foldl_append, List.foldl_map]
  rfl

theorem apply_ofJson {json : String} {members : List (String × Json)}
    (h : Json.parse? json = some (.object members)) (p : Params) :
    p.apply (.read json) = ofPairs (members.map (fun m => (m.1, memberText m.2))) := by
  have hof : ofJson json = .ok (ofPairs (members.map (fun m => (m.1, memberText m.2)))) := by
    unfold ofJson
    rw [h]
  simp only [Params.apply, hof]

end Params
open Params

/-- The same text, but for blanks around it. -/
def Padded (text other : String) : Prop :=
  ∃ before after, (∀ c ∈ before, Text.isBlank c = true) ∧ (∀ c ∈ after, Text.isBlank c = true) ∧
    other.toList = before ++ (text.toList ++ after)

theorem Padded.trimmed {text other : String} (h : Padded text other) :
    Text.trimmed text = Text.trimmed other := by
  obtain ⟨before, after, hb, ha, ho⟩ := h
  unfold Text.trimmed
  rw [ho, Text.trim_append hb ha]

/-- Pairs of the same names in the same order, with blanks around some of the values. -/
def PaddedPairs : List (String × String) → List (String × String) → Prop :=
  List.Forall₂ (fun a b => a.1 = b.1 ∧ Padded a.2 b.2)

/-- Changes that differ in what no request depends on. -/
inductive Change.Alike : Change → Change → Prop
  | same (c : Change) : Alike c c
  | reordered {pairs others : List (String × String)} (h : pairs.Perm others)
      (distinct : (pairs.map (·.1)).Nodup) : Alike (.collect pairs) (.collect others)
  | extended {name : String} (h : name ∉ names) (text : String) (first rest : List (String × String)) :
      Alike (.collect (first ++ rest)) (.collect (first ++ (name, text) :: rest))
  | overwritten (name old text : String) (first between rest : List (String × String)) :
      Alike (.collect (first ++ (between ++ (name, text) :: rest)))
        (.collect (first ++ (name, old) :: (between ++ (name, text) :: rest)))
  | paddedPairs {pairs others : List (String × String)} (h : PaddedPairs pairs others) :
      Alike (.collect pairs) (.collect others)
  | paddedMembers {json other : String} {members others : List (String × Json)}
      (first : Json.parse? json = some (.object members))
      (second : Json.parse? other = some (.object others))
      (h : PaddedPairs (members.map (fun m => (m.1, memberText m.2)))
        (others.map (fun m => (m.1, memberText m.2)))) : Alike (.read json) (.read other)
  | paddedValue (name : String) {text other : String} (h : Padded text other) :
      Alike (.set name text) (.set name other)

section Alike
variable {p q : Params} {asked : String → Prop}

/-- A value does not count once there is another under its name. -/
theorem agreeOn_overwritten (p : Params) (name old text : String) (between rest : List Change) :
    AgreeOn asked ((between ++ .set name text :: rest).foldl apply p)
      ((between ++ .set name text :: rest).foldl apply (p.set name old)) := by
  -- under all other names the two agree from the start, and under this one once it is set again
  have hset : AgreeOn (fun n => asked n ∧ n ≠ name) p (p.set name old) :=
    (agreeOn_set p (fun hn => hn.2 rfl)).symm
  rw [List.foldl_append, List.foldl_append, List.foldl_cons, List.foldl_cons]
  exact ((hset.foldl between).set rfl).foldl rest

theorem PaddedPairs.agreeOn {pairs others : List (String × String)} (h : PaddedPairs pairs others)
    (hpq : AgreeOn asked p q) :
    AgreeOn asked (pairs.foldl (fun p pair => p.set pair.1 pair.2) p)
      (others.foldl (fun p pair => p.set pair.1 pair.2) q) := by
  induction h generalizing p q with
  | nil => exact hpq
  | @cons a b pairs others hab _ ih =>
    obtain ⟨hname, hvalue⟩ := hab
    rw [List.foldl_cons, List.foldl_cons, ← hname]
    exact ih ((hpq.mono fun _ hn => hn.1).set hvalue.trimmed)

theorem Change.Alike.agreeOn {c d : Change} (h : c.Alike d) (hpq : AgreeOn (· ∈ names) p q) :
    AgreeOn (· ∈ names) (p.apply c) (q.apply d) := by
  cases h with
  | same => exact hpq.apply c
  | @reordered pairs others h distinct =>
    refine agreeOn_of_get? (fun name _ => ?_)
    have hreverse : (pairs.reverse.map (·.1)).Nodup :=
      (pairs.reverse_perm.map (·.1)).nodup_iff.2 distinct
    rw [Params.apply, Params.apply, get?_ofPairs, get?_ofPairs]
    exact Json.lookup_perm (pairs.reverse_perm.trans (h.trans others.reverse_perm.symm)) hreverse name
  | extended h text first rest =>
    rw [Params.apply, Params.apply, ofPairs_append, ofPairs_append]
    exact (agreeOn_set _ h).symm.foldl _
  | overwritten name old text first between rest =>
    rw [Params.apply, Params.apply, ofPairs_append, ofPairs_append, List.map_cons, List.map_append]
    exact agreeOn_overwritten _ name old text _ _
  | paddedPairs h => exact h.agreeOn (.refl empty)
  | paddedMembers first second h =>
    rw [apply_ofJson first, apply_ofJson second]
    exact h.agreeOn (.refl empty)
  | paddedValue name h => exact (hpq.mono fun _ hn => hn.1).set h.trimmed

/-- Put together by changes that are alike one by one, parameters agree. -/
theorem agreeOn_built {changes others : List Change} (h : List.Forall₂ Change.Alike changes others)
    (hpq : AgreeOn (· ∈ names) p q) :
    AgreeOn (· ∈ names) (changes.foldl apply p) (others.foldl apply q) := by
  induction h generalizing p q with
  | nil => exact hpq
  | cons hcd _ ih => exact ih (hcd.agreeOn hpq)

end Alike

/-- A request depends on nothing but the trimmed values of the parameters that are looked at. So what
comes of it stays the same when pairs change places, when values are set under other names, or set
before one that replaces them, and when blanks are put around values. -/
theorem outcome_of_values :
    (∀ p q : Params, AgreeOn (· ∈ names) p q → SameOutcome p q) ∧
    (∀ changes others, List.Forall₂ Change.Alike changes others →
      SameOutcome (built changes) (built others)) ∧
    (∀ before after name text, name ∉ names →
      SameOutcome (built (before ++ after)) (built (before ++ .set name text :: after))) ∧
    (∀ before between after name old text,
      SameOutcome (built (before ++ (between ++ .set name text :: after)))
        (built (before ++ .set name old :: (between ++ .set name text :: after)))) := by
  refine ⟨fun p q h => h.sameOutcome, fun changes others h => ?_, ?_, ?_⟩
  · exact (agreeOn_built h (.refl empty)).sameOutcome
  · intro before after name text hn
    rw [built_append, built_append, List.foldl_cons]
    exact ((agreeOn_set (built before) hn).symm.foldl after).sameOutcome
  · intro before between after name old text
    rw [built_append, built_append, List.foldl_cons]
    exact (agreeOn_overwritten (built before) name old text between after).sameOutcome

def sizePairs : List (String × String) := [("width", "64"), ("height", " 64"), ("srs", "")]

/-- The same sizes in another order, one of them set twice, and a name that is not looked at. -/
def shuffledPairs : List (String × String) :=
  [("lang", "en"), ("height", "64\t"), ("width", "1"), ("width", "64")]

theorem outcome_of_values_sizes :
    AgreeOn (· ∈ names) (ofPairs sizePairs) (ofPairs shuffledPairs) ∧
    SameOutcome (ofPairs sizePairs) (ofPairs shuffledPairs) ∧
    List.Forall₂ Change.Alike [.collect sizePairs, .set "lon0" "1"]
      [.collect sizePairs.reverse, .set "lon0" " 1"] ∧
    SameOutcome (built [.collect sizePairs, .set "lon0" "1"])
      (built [.collect sizePairs.reverse, .set "lon0" " 1"]) ∧
    "lang" ∉ names ∧
    SameOutcome (built [.collect sizePairs]) (built [.collect sizePairs, .set "lang" "en"]) := by
  have hvalues : AgreeOn (· ∈ names) (ofPairs sizePairs) (ofPairs shuffledPairs) := by
    unfold AgreeOn
    decide +kernel
  have halike : List.Forall₂ Change.Alike [.collect sizePairs, .set "lon0" "1"]
      [.collect sizePairs.reverse, .set "lon0" " 1"] := by
    refine .cons (.reordered (List.reverse_perm _).symm (by decide)) (.cons (.paddedValue _ ?_) .nil)
    exact ⟨[' '], [], by decide, by decide, by decide⟩
  have hlang : "lang" ∉ names := by decide
  exact ⟨hvalues, outcome_of_values.1 _ _ hvalues, halike, outcome_of_values.2.1 _ _ halike, hlang,
    outcome_of_values.2.2.1 [.collect sizePairs] [] "lang" "en" hlang⟩

end StyledMap.Request
