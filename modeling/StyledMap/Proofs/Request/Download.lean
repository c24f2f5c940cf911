import StyledMap.Proofs.Json.Returns
import StyledMap.Proofs.Steps
import StyledMap.Request.Export

/-! Documents for download. What a client gets is the document it gave, indented: the same value, and
the same bytes if it is sent again. -/
namespace StyledMap.Request.Export
open Json (Tree)

theorem make_eq_ok {data : String} {e : Export} :
    make data = .ok e ↔ ∃ v, Json.Holds data v ∧ e.body = v.indented := by
  unfold make
  simp only [← Json.parse?_eq_some]
  cases Json.parse? data with
  | none => simp
  | some v =>
    obtain ⟨body⟩ := e
    simp [eq_comm]

theorem make_eq_error {data : String} {f : Fault} :
    make data = .error f ↔ f = .reading "data" .malformed ∧ ∀ v, ¬ Json.Holds data v := by
  unfold make
  simp only [← Json.parse?_eq_some]
  cases Json.parse? data with
  | none => simp [eq_comm]
  | some v => simp

/-- A document is tidied if it is one value, whose written form holds the same value and is left as it
is; everything else is malformed. -/
theorem make_preserves (data : String) :
    (∀ e, make data = .ok e ↔ ∃ v, Json.Holds data v ∧ e.body = v.indented) ∧
    (∀ f, make data = .error f ↔ f = .reading "data" .malformed ∧ ∀ v, ¬ Json.Holds data v) ∧
    (∀ f, make data = .error f → f.kind = .malformedInput) ∧
    ∀ e, make data = .ok e → Json.FloatsReturn data →
      (∀ v, Json.Holds e.body v ↔ Json.Holds data v) ∧ make e.body = .ok e := by
  refine ⟨fun e => make_eq_ok, fun f => make_eq_error, ?_, ?_⟩
  · intro f hf
    rw [(make_eq_error.1 hf).1]
    rfl
  · intro e he hfloats
    obtain ⟨v, hv, hbody⟩ := make_eq_ok.1 he
    have hb : Json.Holds e.body v := hbody ▸ (hv.returns hfloats).holds_indented
    refine ⟨fun w => ?_, make_eq_ok.2 ⟨v, hb, hbody⟩⟩
    rw [← Json.parse?_eq_some, ← Json.parse?_eq_some, Json.parse?_eq_some.2 hb,
      Json.parse?_eq_some.2 hv]

/-- Members with repeated and escaped names, doubles, whole numbers of both signs, empty containers. -/
def sample : String :=
  "\x7b\"rules\" : [0.50, -3, 18446744073709551615],\"name\":\"\\u00e9\\/\\n\", \"rules\":[[], \x7b\x7d, 1e2]\x7d"

theorem make_preserves_sample : Json.FloatsReturn sample ∧
    ∃ e, make sample = .ok e ∧ (∀ v, Json.Holds e.body v ↔ Json.Holds sample v) ∧
      make e.body = .ok e := by
  have hfloats : Json.FloatsReturn sample := by decide +kernel
  obtain ⟨e, he⟩ : ∃ e, make sample = .ok e := Steps.exists_of_isOk (by decide +kernel)
  exact ⟨hfloats, e, he, (make_preserves sample).2.2.2 e he hfloats⟩

/-- An array inside `n` others, each the only item of the next. -/
def nestedArray : Nat → Tree
  | 0 => .array []
  | n + 1 => .array [nestedArray n]

def nestedText : Nat → List Char
  | 0 => ['[', ']']
  | n + 1 => '[' :: (nestedText n ++ [']'])

theorem spells_nested (n : Nat) : (nestedArray n).Spells (nestedText n) := by
  induction n with
  | zero =>
    exact Json.Token.Spelled.arrayStart.spelling
      (Json.Token.Spelled.arrayEnd.spelling (.spaces Json.spaces_nil))
  | succ n ih =>
    exact Json.Token.Spelled.arrayStart.spelling
      (ih.append (Json.Token.Spelled.arrayEnd.spelling (.spaces Json.spaces_nil)))

theorem spells_nestedText (n : Nat) : (nestedArray n).Spells (String.ofList (nestedText n)).toList := by
  rw [String.toList_ofList]
  exact spells_nested n

theorem nested_means {n depth : Nat} : (∃ v, (nestedArray n).Means depth v) ↔ n < depth := by
  simp only [← Tree.value?_eq_some]
  induction n generalizing depth with
  | zero => cases depth with
    | zero => simp [nestedArray, Tree.value?]
    | succ d => simp [nestedArray, Tree.value?, Tree.values?]
  | succ n ih => cases depth with
    | zero => simp [nestedArray, Tree.value?]
    | succ d =>
      rw [Nat.succ_lt_succ_iff, ← ih]
      cases h : (nestedArray n).value? d <;> simp [nestedArray, Tree.value?, Tree.values?, h]

/-- Arrays inside each other are one value, and tidied as long as not too many are open. -/
theorem make_nested (n : Nat) :
    (∃ e, make (String.ofList (nestedText n)) = .ok e) ↔ n < Json.depthLimit := by
  have spells := spells_nestedText n
  rw [← nested_means]
  constructor
  · rintro ⟨e, he⟩
    obtain ⟨v, ⟨t, ht, hv⟩, -⟩ := make_eq_ok.1 he
    obtain rfl : nestedArray n = t :=
      Option.some.inj ((Tree.parse?_eq_some.2 spells).symm.trans (Tree.parse?_eq_some.2 ht))
    exact ⟨v, hv⟩
  · rintro ⟨v, hv⟩
    exact ⟨⟨v.indented⟩, make_eq_ok.2 ⟨v, ⟨_, spells, hv⟩, rfl⟩⟩

theorem deep_arrays_refused :
    ¬ ∀ data : String, (∃ t : Tree, t.Spells data.toList) → ∃ e, make data = .ok e := by
  intro h
  have hlt := (make_nested 127).1 (h _ ⟨_, spells_nestedText 127⟩)
  exact absurd hlt (by decide)

end StyledMap.Request.Export
