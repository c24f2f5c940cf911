import StyledMap.Proofs.Json.Tokens

/-! Reading trees. The reader goes through the tokens of a tree to the tree, and whatever it takes for
a tree is made of that tree's tokens; so a text holds a tree exactly if it spells one. -/
namespace StyledMap.Json
namespace Tree

theorem run_cons {s r : State} {k : Token} (h : s.step k = some r) (ks : List Token) :
    s.run (k :: ks) = r.run ks := by
  rw [State.run, h]

/-- No tree starts with the end of an array. -/
theorem exists_cons (t : Tree) : ∃ k ks, t.tokens = k :: ks ∧ k ≠ .arrayEnd := by
  cases t with
  | leaf l => exact ⟨_, _, by rw [tokens], by simp⟩
  | array ts => cases ts <;> exact ⟨_, _, by rw [tokens], by simp⟩
  | object ms => cases ms <;> exact ⟨_, _, by rw [tokens], by simp⟩

theorem run_opened (t : Tree) (stack : List Frame) (ks : List Token) :
    (State.opened stack).run (t.tokens ++ ks) =
      (State.value (.array [] :: stack)).run (t.tokens ++ ks) := by
  obtain ⟨k, ls, h, hk⟩ := t.exists_cons
  rw [h, List.cons_append, State.run, State.run]
  have hstep : (State.opened stack).step k = (State.value (.array [] :: stack)).step k := by
    cases k <;> first | rfl | exact absurd rfl hk
  rw [hstep]

theorem run_items {ts : List Tree}
    (h : ∀ t ∈ ts, ∀ stack ks, (State.value stack).run (t.tokens ++ ks) = (State.after t stack).run ks)
    (t : Tree) (before : List Tree) (stack : List Frame) (ks : List Token) :
    (State.after t (.array before :: stack)).run (itemTokens ts ++ ks) =
      (State.after (.array ((t :: before).reverse ++ ts)) stack).run ks := by
  induction ts generalizing t before with
  | nil => rw [itemTokens, List.append_nil]; rfl
  | cons u ts ih =>
    rw [List.forall_mem_cons] at h
    rw [itemTokens, List.cons_append, List.append_assoc]
    rw [run_cons (r := .value (.array (t :: before) :: stack)) rfl, h.1, ih h.2]
    simp

theorem run_members {ms : List (List Piece × Tree)}
    (h : ∀ m ∈ ms, ∀ stack ks,
      (State.value stack).run (m.2.tokens ++ ks) = (State.after m.2 stack).run ks)
    (t : Tree) (name : List Piece) (before : List (List Piece × Tree)) (stack : List Frame)
    (ks : List Token) :
    (State.after t (.object before name :: stack)).run (memberTokens ms ++ ks) =
      (State.after (.object (((name, t) :: before).reverse ++ ms)) stack).run ks := by
  induction ms generalizing t name before with
  | nil => rw [memberTokens, List.append_nil]; rfl
  | cons m ms ih =>
    obtain ⟨s, u⟩ := m
    rw [List.forall_mem_cons] at h
    rw [memberTokens, List.cons_append, List.cons_append, List.cons_append, List.append_assoc]
    rw [run_cons (r := .name false ((name, t) :: before) stack) rfl,
      run_cons (r := .colon ((name, t) :: before) s stack) rfl,
      run_cons (r := .value (.object ((name, t) :: before) s :: stack)) rfl, h.1, ih h.2]
    simp

/-- A tree is read from its tokens, wherever it stands. -/
theorem run_tokens (t : Tree) (stack : List Frame) (ks : List Token) :
    (State.value stack).run (t.tokens ++ ks) = (State.after t stack).run ks := by
  induction t using Tree.inductionOn generalizing stack ks with
  | leaf l => rfl
  | array ts ih =>
    cases ts with
    | nil => rfl
    | cons t ts =>
      rw [List.forall_mem_cons] at ih
      rw [tokens, List.cons_append, run_cons (r := .opened stack) rfl, List.append_assoc,
        run_opened, ih.1, run_items ih.2]
      rfl
  | object ms ih =>
    cases ms with
    | nil => rfl
    | cons m ms =>
      obtain ⟨s, t⟩ := m
      rw [List.forall_mem_cons] at ih
      rw [tokens, List.cons_append, List.cons_append, List.cons_append, List.append_assoc]
      rw [run_cons (r := .name true [] stack) rfl, run_cons (r := .colon [] s stack) rfl,
        run_cons (r := .value (.object [] s :: stack)) rfl, ih.1, run_members ih.2]
      rfl

theorem ofTokens?_tokens (t : Tree) : ofTokens? t.tokens = some t := by
  have h := run_tokens t [] []
  rw [List.append_nil] at h
  rw [ofTokens?, h]
  rfl

/-- Items that a comma follows. -/
def openItems (ts : List Tree) : List Token := ts.flatMap (fun t => t.tokens ++ [.comma])

def openMembers (ms : List (List Piece × Tree)) : List Token :=
  ms.flatMap (fun m => .leaf (.string m.1) :: .colon :: (m.2.tokens ++ [.comma]))

/-- The tokens that have been read of a container. -/
def Frame.read : Frame → List Token
  | .array before => .arrayStart :: openItems before.reverse
  | .object before name =>
    .objectStart :: (openMembers before.reverse ++ [.leaf (.string name), .colon])

def readOf : List Frame → List Token
  | [] => []
  | f :: stack => readOf stack ++ f.read

/-- All tokens that have been read. -/
def State.read : State → List Token
  | .value stack => readOf stack
  | .opened stack => readOf stack ++ [.arrayStart]
  | .name _ before stack => readOf stack ++ .objectStart :: openMembers before.reverse
  | .colon before key stack =>
    readOf stack ++ .objectStart :: (openMembers before.reverse ++ [.leaf (.string key)])
  | .after t stack => readOf stack ++ t.tokens

/-- An object that has just opened holds nothing yet. -/
def State.Proper : State → Prop
  | .name true before _ => before = []
  | _ => True

theorem itemTokens_append (ts : List Tree) (t : Tree) :
    itemTokens (ts ++ [t]) = .comma :: (openItems ts ++ (t.tokens ++ [.arrayEnd])) := by
  induction ts with
  | nil => simp [itemTokens, openItems]
  | cons u ts ih => rw [List.cons_append, itemTokens, ih]; simp [openItems]

theorem tokens_array (ts : List Tree) (t : Tree) : (Tree.array (ts ++ [t])).tokens =
    .arrayStart :: (openItems ts ++ (t.tokens ++ [.arrayEnd])) := by
  cases ts with
  | nil => simp [tokens, itemTokens, openItems]
  | cons u ts => rw [List.cons_append, tokens, itemTokens_append]; simp [openItems]

theorem memberTokens_append (ms : List (List Piece × Tree)) (name : List Piece) (t : Tree) :
    memberTokens (ms ++ [(name, t)]) = .comma :: (openMembers ms ++
      (.leaf (.string name) :: .colon :: (t.tokens ++ [.objectEnd]))) := by
  induction ms with
  | nil => simp [memberTokens, openMembers]
  | cons m ms ih => rw [List.cons_append, memberTokens, ih]; simp [openMembers]

theorem tokens_object (ms : List (List Piece × Tree)) (name : List Piece) (t : Tree) :
    (Tree.object (ms ++ [(name, t)])).tokens = .objectStart :: (openMembers ms ++
      (.leaf (.string name) :: .colon :: (t.tokens ++ [.objectEnd]))) := by
  cases ms with
  | nil => simp [tokens, memberTokens, openMembers]
  | cons m ms => rw [List.cons_append, tokens, memberTokens_append]; simp [openMembers]

theorem read_startValue {stack : List Frame} {k : Token} {s : State}
    (h : startValue stack k = some s) : s.Proper ∧ s.read = readOf stack ++ [k] := by
  cases k <;> simp only [startValue, Option.some.injEq, reduceCtorEq] at h
  all_goals subst h
  · exact ⟨trivial, rfl⟩
  · exact ⟨rfl, by simp [State.read, openMembers]⟩
  · exact ⟨trivial, by simp [State.read, tokens]⟩

theorem read_endValue {t : Tree} {stack : List Frame} {k : Token} {s : State}
    (h : endValue t stack k = some s) : s.Proper ∧ s.read = readOf stack ++ t.tokens ++ [k] := by
  unfold endValue at h
  split at h
  · obtain rfl := Option.some.inj h
    exact ⟨trivial, by simp [State.read, readOf, Frame.read, openItems]⟩
  · obtain rfl := Option.some.inj h
    exact ⟨trivial, by simp [State.read, readOf, Frame.read, tokens_array]⟩
  · obtain rfl := Option.some.inj h
    exact ⟨trivial, by simp [State.read, readOf, Frame.read, openMembers]⟩
  · obtain rfl := Option.some.inj h
    exact ⟨trivial, by simp [State.read, readOf, Frame.read, tokens_object]⟩
  · cases h

theorem read_step {s s' : State} {k : Token} (hp : s.Proper) (h : s.step k = some s') :
    s'.Proper ∧ s'.read = s.read ++ [k] := by
  unfold State.step at h
  split at h
  · exact read_startValue h
  · obtain rfl := Option.some.inj h
    exact ⟨trivial, by simp [State.read, tokens]⟩
  · exact read_startValue h
  · obtain rfl := Option.some.inj h
    obtain rfl := hp
    exact ⟨trivial, by simp [State.read, tokens, openMembers]⟩
  · obtain rfl := Option.some.inj h
    exact ⟨trivial, by simp [State.read]⟩
  · cases h
  · obtain rfl := Option.some.inj h
    exact ⟨trivial, by simp [State.read, readOf, Frame.read]⟩
  · cases h
  · exact read_endValue h

theorem read_run {s s' : State} {ks : List Token} (hp : s.Proper) (h : s.run ks = some s') :
    s'.read = s.read ++ ks := by
  induction ks generalizing s with
  | nil =>
    obtain rfl := Option.some.inj h
    simp
  | cons k ks ih =>
    rw [State.run] at h
    cases hs : s.step k with
    | none => simp [hs] at h
    | some r =>
      obtain ⟨hr, hread⟩ := read_step hp hs
      rw [hs] at h
      rw [ih hr h, hread, List.append_assoc]
      rfl

theorem tokens_of_ofTokens? {ks : List Token} {t : Tree} (h : ofTokens? ks = some t) :
    t.tokens = ks := by
  unfold ofTokens? at h
  split at h
  · rename_i u hu
    obtain rfl := Option.some.inj h
    simpa [State.read, readOf] using read_run (s := .value []) trivial hu
  · cases h

theorem separated_cons {k : Token} {ks : List Token} (hk : k.isMark = true) (h : Separated ks) :
    Separated (k :: ks) := by
  cases ks with
  | nil => exact List.isChain_singleton _
  | cons l ls => exact List.isChain_cons_cons.2 ⟨.inl hk, h⟩

/-- Tokens that anything may stand in front of. -/
def Open (ks : List Token) : Prop := Separated ks ∧ ∀ k, ks.head? = some k → k.isMark = true

theorem Open.cons {k : Token} {ks : List Token} (hk : k.isMark = true) (h : Separated ks) :
    Open (k :: ks) :=
  ⟨separated_cons hk h, by simpa using hk⟩

theorem Open.leaf {l : Leaf} {ks : List Token} (h : Open ks) : Separated (.leaf l :: ks) := by
  cases ks with
  | nil => exact List.isChain_singleton _
  | cons k ks => exact List.isChain_cons_cons.2 ⟨.inr (h.2 k rfl), h.1⟩

theorem open_itemTokens {ts : List Tree} {rest : List Token} (hr : Open rest)
    (h : ∀ t ∈ ts, ∀ rest, Open rest → Separated (t.tokens ++ rest)) : Open (itemTokens ts ++ rest) := by
  induction ts with
  | nil => exact .cons rfl hr.1
  | cons t ts ih =>
    rw [List.forall_mem_cons] at h
    rw [itemTokens, List.cons_append, List.append_assoc]
    exact .cons rfl (h.1 _ (ih h.2))

theorem open_memberTokens {ms : List (List Piece × Tree)} {rest : List Token} (hr : Open rest)
    (h : ∀ m ∈ ms, ∀ rest, Open rest → Separated (m.2.tokens ++ rest)) :
    Open (memberTokens ms ++ rest) := by
  induction ms with
  | nil => exact .cons rfl hr.1
  | cons m ms ih =>
    rw [List.forall_mem_cons] at h
    have hm := h.1 _ (ih h.2)
    rw [memberTokens, List.cons_append, List.cons_append, List.cons_append, List.append_assoc]
    exact .cons rfl (Open.leaf (.cons rfl hm))

theorem separated_append (t : Tree) (rest : List Token) (hr : Open rest) :
    Separated (t.tokens ++ rest) := by
  induction t using Tree.inductionOn generalizing rest with
  | leaf l => exact hr.leaf
  | array ts ih =>
    cases ts with
    | nil => exact separated_cons rfl (separated_cons rfl hr.1)
    | cons t ts =>
      rw [List.forall_mem_cons] at ih
      rw [tokens, List.cons_append, List.append_assoc]
      exact separated_cons rfl (ih.1 _ (open_itemTokens hr ih.2))
  | object ms ih =>
    cases ms with
    | nil => exact separated_cons rfl (separated_cons rfl hr.1)
    | cons m ms =>
      rw [List.forall_mem_cons] at ih
      have hm := ih.1 _ (open_memberTokens hr ih.2)
      rw [tokens, List.cons_append, List.cons_append, List.cons_append, List.append_assoc]
      exact separated_cons rfl (Open.leaf (.cons rfl hm))

theorem separated_tokens (t : Tree) : Separated t.tokens := by
  have h := t.separated_append [] ⟨List.isChain_nil, by simp⟩
  rwa [List.append_nil] at h

theorem tokens_injective {t u : Tree} (h : t.tokens = u.tokens) : t = u := by
  have ht := ofTokens?_tokens t
  rw [h, ofTokens?_tokens u] at ht
  exact (Option.some.inj ht).symm

/-- Trees are told apart by their tokens. -/
instance : DecidableEq Tree := fun _ _ => decidable_of_iff _ ⟨tokens_injective, congrArg tokens⟩

/-- The tree of a text, as characters. -/
def ofChars? (cs : List Char) : Option Tree := (tokens? cs).bind ofTokens?

theorem ofChars?_eq_some {cs : List Char} {t : Tree} : ofChars? cs = some t ↔ t.Spells cs := by
  unfold ofChars?
  rw [Option.bind_eq_some_iff]
  constructor
  · rintro ⟨ks, hks, ht⟩
    obtain rfl := tokens_of_ofTokens? ht
    exact tokens?_sound hks
  · intro h
    have hks := tokens?_append h t.separated_tokens (stops_nil _)
    rw [List.append_nil, tokens?_nil, Option.map_some, List.append_nil] at hks
    exact ⟨t.tokens, hks, t.ofTokens?_tokens⟩

/-- A text is read as a tree exactly if it spells the tree. -/
theorem parse?_eq_some {s : String} {t : Tree} : parse? s = some t ↔ t.Spells s.toList :=
  ofChars?_eq_some

theorem parse?_ofList (cs : List Char) : parse? (String.ofList cs) = ofChars? cs := by
  rw [parse?, String.toList_ofList, ofChars?]

end Tree
end StyledMap.Json
