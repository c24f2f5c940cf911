import StyledMap.Proofs.Xml.Reading

/-! What a text says about entities: which it declares and which it refers to, in the order of the text.
Both are found in the bare characters, wherever they stand, so the text need not be a document that can
be read, nor its characters legal. -/
namespace StyledMap.Xml

inductive Mention where
  | declares (name value : String)
  | refers (name : String)
  deriving Repr, DecidableEq

/-- The entity that is declared, if one is. -/
def Mention.declared? : Mention → Option String
  | .declares name _ => some name
  | .refers _ => none

/-- What stands behind an ampersand. A reference to a character mentions no entity. -/
def referred? (cs : List Char) : Option Mention :=
  let word := cs.takeWhile (· != ';')
  if (character? word).isSome then none else some (.refers (String.ofList word))

def entityMark : List Char := "!ENTITY ".toList

/-- What stands behind the opening bracket of a tag. -/
def declared? (cs : List Char) : Option Mention :=
  if entityMark.isPrefixOf cs then
    let rest := cs.drop entityMark.length
    let value := ((rest.dropWhile (· != ' ')).drop 2).takeWhile (· != '\"')
    some (.declares (String.ofList (rest.takeWhile (· != ' '))) (String.ofList value))
  else none

def mentions : List Char → List Mention
  | [] => []
  | c :: cs =>
    (if c = '&' then referred? cs else if c = '<' then declared? cs else none).toList ++ mentions cs

/-- A text says this much about entities, whatever stands behind it. -/
def Says (cs : List Char) (ms : List Mention) : Prop :=
  ∀ rest, mentions (cs ++ rest) = ms ++ mentions rest

theorem Says.mentions_eq {cs : List Char} {ms : List Mention} (h : Says cs ms) : mentions cs = ms := by
  have hend := h []
  rwa [List.append_nil, mentions, List.append_nil] at hend

theorem says_nil : Says [] [] := fun _ => rfl

theorem Says.append {cs ds : List Char} {ms ns : List Mention} (h : Says cs ms) (hd : Says ds ns) :
    Says (cs ++ ds) (ms ++ ns) := by
  intro rest
  rw [List.append_assoc, h, hd, List.append_assoc]

/-- A silent part in front adds nothing. -/
theorem Says.before {cs ds : List Char} {ms : List Mention} (h : Says cs []) (hd : Says ds ms) :
    Says (cs ++ ds) ms :=
  h.append hd

theorem Says.behind {cs ds : List Char} {ms : List Mention} (h : Says cs ms) (hd : Says ds []) :
    Says (cs ++ ds) ms := by
  have hboth := h.append hd
  rwa [List.append_nil] at hboth

theorem says_flatMap {α : Type} {f : α → List Char} {l : List α} (h : ∀ a ∈ l, Says (f a) []) :
    Says (l.flatMap f) [] := by
  induction l with
  | nil => exact says_nil
  | cons a l ih =>
    rw [List.forall_mem_cons] at h
    rw [List.flatMap_cons]
    exact h.1.before (ih h.2)

/-- Only these two characters begin something that mentions an entity. -/
def markers : List Char := ['&', '<']

theorem says_plain {cs : List Char} (h : ∀ c ∈ cs, c ∉ markers) : Says cs [] := by
  intro rest
  induction cs with
  | nil => rfl
  | cons c cs ih =>
    rw [List.forall_mem_cons] at h
    obtain ⟨hamp, hless⟩ : c ≠ '&' ∧ c ≠ '<' := by simpa [markers] using h.1
    have hrest := ih h.2
    simpa [mentions, hamp, hless] using hrest

/-- A name holds nothing that would end or begin anything. -/
theorem isNameChar_not_mem {c : Char} (h : isNameChar c = true) :
    c ∉ markers ∧ c ≠ ';' ∧ c ≠ ' ' ∧ c ≠ '!' := by
  have hnone : ∀ d ∈ ['&', '<', ';', ' ', '!'], isNameChar d = false := by decide
  refine ⟨fun hm => ?_, ?_, ?_, ?_⟩
  · have hd := hnone c (List.mem_append_left [';', ' ', '!'] hm)
    rw [h] at hd
    cases hd
  all_goals
    rintro rfl
    revert h
    decide

theorem says_name {cs : List Char} (h : isName cs = true) : Says cs [] :=
  says_plain fun c hc => (isNameChar_not_mem (isNameChar_of_isName h c hc)).1

theorem takeWhile_ne_append {c : Char} {word : List Char} (h : ∀ d ∈ word, d ≠ c) (rest : List Char) :
    (word ++ c :: rest).takeWhile (· != c) = word ∧ (word ++ c :: rest).dropWhile (· != c) = c :: rest := by
  induction word with
  | nil => simp
  | cons d word ih =>
    rw [List.forall_mem_cons] at h
    simpa [h.1] using ih h.2

theorem says_reference {word : List Char} (h : ∀ c ∈ word, isReferenceChar c = true) :
    Says ('&' :: (word ++ [';'])) (referred? (word ++ [';'])).toList := by
  have hplain : ∀ c ∈ word, c ∉ markers ∧ c ≠ ';' := by
    intro c hc
    by_cases hname : isNameChar c = true
    · exact ⟨(isNameChar_not_mem hname).1, (isNameChar_not_mem hname).2.1⟩
    · have hsharp : c = '#' := by simpa [isReferenceChar, hname] using h c hc
      subst hsharp
      decide
  have hword (rest : List Char) : (word ++ ';' :: rest).takeWhile (· != ';') = word :=
    (takeWhile_ne_append (fun c hc => (hplain c hc).2) rest).1
  have hbehind : Says (word ++ [';']) [] :=
    (says_plain fun c hc => (hplain c hc).1).before (says_plain (by decide))
  intro rest
  have hrest := hbehind rest
  rw [List.append_assoc, List.singleton_append, List.nil_append] at hrest
  simp [mentions, referred?, hword, hrest]

/-- Escaping leaves references to characters, and nothing else that counts. -/
theorem says_escape (cs : List Char) : Says (escape cs) [] := by
  refine says_flatMap fun c _ => ?_
  obtain ⟨word, hc, hchar, hword⟩ | ⟨hc, hplain⟩ := escapeChar_cases c
  · have hsays := says_reference hword
    have hsilent : referred? (word ++ [';']) = none := by
      have hends : ∀ d ∈ word, d ≠ ';' := by
        rintro d hd rfl
        exact absurd (hword _ hd) (by decide)
      simp [referred?, (takeWhile_ne_append hends []).1, hchar]
    rw [hc]
    rwa [hsilent] at hsays
  · rw [hc]
    refine says_plain fun d hd hm => ?_
    obtain rfl := List.mem_singleton.1 hd
    exact hplain (List.mem_append_left _ hm)

/-- A tag is no declaration unless an exclamation mark stands first. -/
theorem Says.opened {c : Char} {cs : List Char} {ms : List Mention} (hc : c ≠ '!')
    (h : Says (c :: cs) ms) : Says ('<' :: c :: cs) ms := by
  intro rest
  have hmark : entityMark = '!' :: "ENTITY ".toList := by decide
  have hprefix : entityMark.isPrefixOf (c :: (cs ++ rest)) = false := by
    rw [hmark, List.isPrefixOf_cons_cons, beq_false_of_ne (Ne.symm hc), Bool.false_and]
  have hnone : declared? (c :: (cs ++ rest)) = none := by
    rw [declared?, hprefix]
    rfl
  have hrest := h rest
  rw [List.cons_append] at hrest ⊢
  rw [List.cons_append, mentions, hrest]
  simp [hnone]

section
variable {name : String} {attributes : List (String × String)}

theorem says_tagStart (h : isName name.toList = true)
    (ha : ∀ a ∈ attributes, isName a.1.toList = true) : Says (tagStart name attributes) [] := by
  obtain ⟨c, ds, hname, hc, hds⟩ := isNameStart_of_isName h
  have hfirst : c ≠ '!' := (isNameChar_not_mem (by simp [isNameChar, hc])).2.2.2
  have hattributes : Says (attributes.flatMap attributeText) [] := by
    refine says_flatMap fun a hm => ?_
    have hspace : Says [' '] [] := says_plain (by decide)
    have hquote : Says ['=', '\"'] [] := says_plain (by decide)
    have hclose : Says ['\"'] [] := says_plain (by decide)
    have hvalue := hquote.before ((says_escape a.2.toList).before hclose)
    simpa [attributeText] using hspace.before ((says_name (ha a hm)).before hvalue)
  have hrest : Says (name.toList ++ attributes.flatMap attributeText) [] :=
    (says_name h).before hattributes
  unfold tagStart
  rw [hname] at hrest ⊢
  exact Says.opened hfirst hrest

theorem says_tagEnd (h : isName name.toList = true) : Says (tagEnd name) [] := by
  have hslash : Says ['/'] [] := says_plain (by decide)
  have hend : Says ['>'] [] := says_plain (by decide)
  exact Says.opened (by decide) (hslash.before ((says_name h).before hend))

end

theorem Says.line {text : List Char} {ms : List Mention} (h : Says text ms) (depth : Nat) :
    Says (Xml.line depth text) ms := by
  have hspaces : Says (List.replicate (2 * depth) ' ') [] :=
    says_plain fun c hc => by rw [List.eq_of_mem_replicate hc]; decide
  exact hspaces.before (h.behind (says_plain (by decide)))

/-- Items say this much, at whatever depth they are laid out. -/
def ItemsSay (items : List Item) (ms : List Mention) : Prop :=
  ∀ depth, Says (layout depth (Item.allMarks items)) ms

section
variable {items : List Item} {ms : List Mention}

theorem itemsSay_nil : ItemsSay [] [] := fun _ => says_nil

theorem ItemsSay.append {others : List Item} {ns : List Mention} (h : ItemsSay items ms)
    (ho : ItemsSay others ns) : ItemsSay (items ++ others) (ms ++ ns) := by
  intro depth
  rw [allMarks_append, (Item.balanced_allMarks items).layout_append]
  exact (h depth).append (ho depth)

theorem ItemsSay.flatMap {α : Type} {f : α → List Mention} {l : List α}
    (h : List.Forall₂ (fun a i => ItemsSay [i] (f a)) l items) : ItemsSay items (l.flatMap f) := by
  induction h with
  | nil => exact itemsSay_nil
  | cons hi _ ih => exact ItemsSay.append hi ih

theorem itemsSay_silent (h : ∀ i ∈ items, ItemsSay [i] []) : ItemsSay items [] := by
  induction items with
  | nil => exact itemsSay_nil
  | cons i is ih =>
    rw [List.forall_mem_cons] at h
    exact ItemsSay.append h.1 (ih h.2)

/-- An item that is one line says what its line says. -/
theorem itemsSay_line {i : Item} {text : List Char} (hi : i.marks = [.line text]) (h : Says text ms) :
    ItemsSay [i] ms := by
  intro depth
  have hlayout : layout depth (Item.allMarks [i]) = line depth text := by
    simp [Item.allMarks, hi, layout]
  rw [hlayout]
  exact h.line depth

section
variable {name : String} {attributes : List (String × String)} (h : isName name.toList = true)
  (ha : ∀ a ∈ attributes, isName a.1.toList = true)

include h ha

theorem itemsSay_bare : ItemsSay [.bare name attributes] [] :=
  itemsSay_line rfl ((says_tagStart h ha).before (says_plain (by decide)))

theorem itemsSay_field (content : String) : ItemsSay [.field name attributes content] [] := by
  have hend : Says ['>'] [] := says_plain (by decide)
  have hcontent := hend.before ((says_escape content.toList).before (says_tagEnd h))
  exact itemsSay_line rfl ((says_tagStart h ha).before hcontent)

/-- A group says what stands inside it. -/
theorem ItemsSay.group (hi : ItemsSay items ms) : ItemsSay [.group name attributes items] ms := by
  intro depth
  have hopen : Says (tagStart name attributes ++ ['>']) [] :=
    (says_tagStart h ha).before (says_plain (by decide))
  have hclose := (says_tagEnd h).line depth
  have hlayout : layout depth (Item.allMarks [.group name attributes items]) =
      line depth (tagStart name attributes ++ ['>']) ++
        (layout (depth + 1) (Item.allMarks items) ++ line depth (tagEnd name)) := by
    simp [Item.allMarks, Item.marks, layout, (Item.balanced_allMarks items).layout_append]
  rw [hlayout]
  exact (hopen.line depth).before ((hi (depth + 1)).behind hclose)

end

theorem itemsSay_reference {name : String} (h : isName name.toList = true)
    (hc : character? name.toList = none) : ItemsSay [.reference name] [.refers name] := by
  have hword : ∀ c ∈ name.toList, isReferenceChar c = true :=
    fun c hm => by simp [isReferenceChar, isNameChar_of_isName h c hm]
  have hends : ∀ c ∈ name.toList, c ≠ ';' :=
    fun c hm => (isNameChar_not_mem (isNameChar_of_isName h c hm)).2.1
  have hmention : referred? (name.toList ++ [';']) = some (.refers name) := by
    simp [referred?, (takeWhile_ne_append hends []).1, hc]
  have hsays := says_reference hword
  rw [hmention] at hsays
  exact itemsSay_line rfl hsays

end

end StyledMap.Xml
