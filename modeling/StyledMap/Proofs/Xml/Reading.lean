import StyledMap.Proofs.Xml.Lines
import StyledMap.Proofs.Xml.Scan

/-! Reading items back. Whatever an item stands in, its lines add its node and some layout; inside
an element the layout is dropped as soon as there is anything else. -/
namespace StyledMap.Xml

def Building.add (b : Building) (ps : List Piece) : Building := ⟨b.pieces ++ ps, b.frames⟩

theorem Building.add_add (b : Building) (ps qs : List Piece) :
    (b.add ps).add qs = b.add (ps ++ qs) := by
  simp [add]

/-- Without carriage returns all line ends are alike. -/
theorem lineEnds_of_not_mem {cs : List Char} (h : '\r' ∉ cs) : lineEnds false cs = cs := by
  induction cs with
  | nil => rfl
  | cons c cs ih =>
    rw [List.mem_cons, not_or] at h
    simp [lineEnds, Ne.symm h.1, ih h.2]

/-- Content that leads from one building to another. -/
def Reads (entities : Entities) (cs : List Char) (b b' : Building) : Prop :=
  ∃ ts, scan .content cs = some (.content, ts) ∧ ts.foldlM (fill entities) b = some b'

section
variable {entities : Entities} {b b' b'' : Building}

theorem Reads.nil : Reads entities [] b b := ⟨[], rfl, rfl⟩

theorem Reads.append {cs ds : List Char} (h : Reads entities cs b b')
    (h' : Reads entities ds b' b'') : Reads entities (cs ++ ds) b b'' := by
  obtain ⟨ts, hs, hf⟩ := h
  obtain ⟨us, hs', hf'⟩ := h'
  exact ⟨ts ++ us, scan_append hs hs', by rw [List.foldlM_append, hf]; exact hf'⟩

theorem Reads.token {cs : List Char} {t : Token} (h : scan .content cs = some (.content, [t]))
    (hf : fill entities b t = some b') : Reads entities cs b b' :=
  ⟨[t], h, by simp [hf]⟩

theorem reads_char {c : Char} (h : c ∉ ['<', '&', '>']) :
    Reads entities [c] b (b.add [.char c]) :=
  .token (scan_char h) rfl

theorem reads_spaces (n : Nat) :
    Reads entities (List.replicate n ' ') b (b.add (List.replicate n (.char ' '))) := by
  induction n generalizing b with
  | zero => simpa [Building.add] using Reads.nil
  | succ n ih =>
    have hrest := @ih (b.add [.char ' '])
    rw [Building.add_add] at hrest
    rw [List.replicate_succ, List.replicate_succ]
    exact (reads_char (by decide)).append hrest

theorem reads_reference {word : List Char} {ps : List Piece}
    (hw : ∀ c ∈ word, isReferenceChar c = true) (hr : referenced? entities word = some ps)
    (hb : b.frames ≠ []) : Reads entities ('&' :: (word ++ [';'])) b (b.add ps) := by
  refine .token (scan_reference hw) ?_
  simp [fill, hb, hr, Building.add]

theorem reads_escapeChar (hb : b.frames ≠ []) (c : Char) :
    Reads entities (escapeChar c) b (b.add [.char c]) := by
  obtain ⟨word, hc, hchar, hword⟩ | ⟨hc, hplain⟩ := escapeChar_cases c
  · rw [hc]
    exact reads_reference hword (by simp [referenced?, hchar]) hb
  · have hsub : ['<', '&', '>'] ⊆ escapedChars := by decide
    rw [hc]
    exact reads_char (fun hmem => hplain (hsub hmem))

theorem reads_escape (hb : b.frames ≠ []) (cs : List Char) :
    Reads entities (escape cs) b (b.add (cs.map .char)) := by
  induction cs generalizing b with
  | nil => simpa [Building.add] using Reads.nil
  | cons c cs ih =>
    have hrest := @ih (b.add [.char c]) hb
    rw [Building.add_add] at hrest
    exact (reads_escapeChar hb c).append hrest

theorem reads_opens {name : String} {attributes : List (String × String)}
    (h : SoundTag name attributes) :
    Reads entities (tagStart name attributes ++ ['>']) b
      ⟨[], ⟨name, attributes, b.pieces⟩ :: b.frames⟩ :=
  .token (scan_opens h) (by simp [fill, h.distinct])

theorem reads_bare {name : String} {attributes : List (String × String)}
    (h : SoundTag name attributes) :
    Reads entities (tagStart name attributes ++ ['/', '>']) b
      (b.add [.element (.element name attributes [])]) :=
  .token (scan_bare h) (by simp [fill, h.distinct, Building.add])

theorem reads_closes {name : String} (h : isName name.toList = true)
    {attributes : List (String × String)} {before ps : List Piece} {frames : List Frame} :
    Reads entities (tagEnd name) ⟨ps, ⟨name, attributes, before⟩ :: frames⟩
      ⟨before ++ [.element (.element name attributes (content ps))], frames⟩ :=
  .token (scan_closes h) (by simp [fill])

theorem runs_chars (before cs : List Char) :
    runs before (cs.map .char) = textNode (before ++ cs) := by
  induction cs generalizing before with
  | nil => simp [runs]
  | cons c cs ih =>
    rw [List.map_cons, runs, ih, List.append_assoc]
    rfl

/-- Without an element around, text is what it is. -/
theorem content_chars (cs : List Char) : content (cs.map .char) = textNode cs := by
  have hnone : (cs.map Piece.char).any Piece.isElement = false := by
    simp [Piece.isElement]
  rw [content, hnone]
  exact runs_chars [] cs

/-- An element with nothing but text on one line. -/
theorem reads_field {name : String} {attributes : List (String × String)}
    (h : SoundTag name attributes) (cs : List Char) :
    Reads entities (tagStart name attributes ++ '>' :: (escape cs ++ tagEnd name)) b
      (b.add [.element (.element name attributes (textNode cs))]) := by
  have hsplit : tagStart name attributes ++ '>' :: (escape cs ++ tagEnd name) =
      (tagStart name attributes ++ ['>']) ++ (escape cs ++ tagEnd name) := by
    simp
  have htext : Reads entities (escape cs) ⟨[], ⟨name, attributes, b.pieces⟩ :: b.frames⟩
      ⟨cs.map .char, ⟨name, attributes, b.pieces⟩ :: b.frames⟩ :=
    reads_escape (by simp) cs
  have hcloses : Reads entities (tagEnd name)
      ⟨cs.map .char, ⟨name, attributes, b.pieces⟩ :: b.frames⟩
      (b.add [.element (.element name attributes (textNode cs))]) := by
    rw [← content_chars]
    exact reads_closes h.name
  rw [hsplit]
  exact (reads_opens h).append (htext.append hcloses)

end

theorem layout_group (depth : Nat) (name : String) (attributes : List (String × String))
    (items : List Item) :
    layout depth (Item.group name attributes items).marks =
      List.replicate (2 * depth) ' ' ++ ((tagStart name attributes ++ ['>']) ++
        '\n' :: (layout (depth + 1) (Item.allMarks items) ++ line depth (tagEnd name))) := by
  simp [Item.marks, layout, (Item.balanced_allMarks items).layout_append, line]

/-- The layout in front of a tag. -/
def indent (depth : Nat) : List Piece := List.replicate (2 * depth) (.char ' ')

/-- Nodes that were laid out one below the other. -/
def laidOut (depth : Nat) (nodes : List Node) : List Piece :=
  nodes.flatMap (fun n => indent depth ++ [.element n, .char '\n'])

/-- What is read of an element around others. If there are none, the layout between its tags is its
text. -/
def grouped (depth : Nat) : List Node → List Node
  | [] => textNode ('\n' :: List.replicate (2 * depth) ' ')
  | n :: ns => n :: ns

def Piece.node? : Piece → Option Node
  | .char _ => none
  | .element n => some n

theorem filter_textNode {cs : List Char} (h : ∀ c ∈ cs, isSpace c = true) :
    (textNode cs).filter (!·.isBlank) = [] := by
  by_cases hc : cs = []
  · simp [textNode, hc]
  · simpa [textNode, hc, Node.isBlank] using h

/-- Blank layout leaves the elements alone. -/
theorem filter_runs (ps : List Piece) (hc : ∀ c, .char c ∈ ps → isSpace c = true)
    (hn : ∀ n, .element n ∈ ps → n.isBlank = false) {before : List Char}
    (hb : ∀ c ∈ before, isSpace c = true) :
    (runs before ps).filter (!·.isBlank) = ps.filterMap Piece.node? := by
  induction ps generalizing before with
  | nil => simpa [runs] using filter_textNode hb
  | cons p ps ih =>
    have hc' : ∀ c, .char c ∈ ps → isSpace c = true := fun c hm => hc c (List.mem_cons_of_mem p hm)
    have hn' : ∀ n, .element n ∈ ps → n.isBlank = false :=
      fun n hm => hn n (List.mem_cons_of_mem p hm)
    cases p with
    | char c =>
      have hspace : isSpace c = true := hc c List.mem_cons_self
      have hbefore : ∀ d ∈ before ++ [c], isSpace d = true := by
        rw [List.forall_mem_append]
        exact ⟨hb, by simpa using hspace⟩
      exact ih hc' hn' hbefore
    | element n =>
      have hblank : n.isBlank = false := hn n List.mem_cons_self
      have hrest := ih hc' hn' (List.forall_mem_nil _)
      rw [runs, List.filter_append, filter_textNode hb, List.filter_cons, hblank, hrest]
      rfl

theorem filterMap_indent (depth : Nat) : (indent depth).filterMap Piece.node? = [] := by
  simp [indent, Piece.node?]

theorem filterMap_laidOut (depth : Nat) (nodes : List Node) :
    (laidOut depth nodes).filterMap Piece.node? = nodes := by
  induction nodes with
  | nil => rfl
  | cons n ns ih =>
    have hsplit : laidOut depth (n :: ns) =
        indent depth ++ .element n :: .char '\n' :: laidOut depth ns := by
      simp [laidOut]
    rw [hsplit, List.filterMap_append, filterMap_indent]
    simp [List.filterMap_cons, Piece.node?, ih]

/-- What stands between the tags of a group. -/
def inside (depth : Nat) (nodes : List Node) : List Piece :=
  .char '\n' :: (laidOut (depth + 1) nodes ++ indent depth)

theorem mem_laidOut {depth : Nat} {nodes : List Node} {p : Piece} (h : p ∈ laidOut depth nodes) :
    p = .char ' ' ∨ p = .char '\n' ∨ ∃ n ∈ nodes, p = .element n := by
  obtain ⟨n, hn, hp⟩ := List.mem_flatMap.1 h
  obtain hp | hp := List.mem_append.1 hp
  · exact .inl (List.eq_of_mem_replicate hp)
  · simp only [List.mem_cons, List.not_mem_nil, or_false] at hp
    obtain rfl | rfl := hp
    · exact .inr (.inr ⟨n, hn, rfl⟩)
    · exact .inr (.inl rfl)

theorem mem_inside {depth : Nat} {nodes : List Node} {p : Piece} (h : p ∈ inside depth nodes) :
    p = .char ' ' ∨ p = .char '\n' ∨ ∃ n ∈ nodes, p = .element n := by
  obtain rfl | h := List.mem_cons.1 h
  · exact .inr (.inl rfl)
  · obtain h | h := List.mem_append.1 h
    · exact mem_laidOut h
    · exact .inl (List.eq_of_mem_replicate h)

theorem isSpace_of_mem_inside {depth : Nat} {nodes : List Node} (c : Char)
    (h : .char c ∈ inside depth nodes) : isSpace c = true := by
  obtain hp | hp | ⟨n, -, hp⟩ := mem_inside h
  · obtain rfl := Piece.char.inj hp
    decide
  · obtain rfl := Piece.char.inj hp
    decide
  · cases hp

theorem filterMap_inside (depth : Nat) (nodes : List Node) :
    (inside depth nodes).filterMap Piece.node? = nodes := by
  rw [inside, List.filterMap_cons, List.filterMap_append, filterMap_laidOut, filterMap_indent]
  simp [Piece.node?]

theorem content_inside (depth : Nat) {nodes : List Node} (h : ∀ n ∈ nodes, n.isBlank = false) :
    content (inside depth nodes) = grouped depth nodes := by
  cases nodes with
  | nil =>
    have hchars : inside depth [] = ('\n' :: List.replicate (2 * depth) ' ').map Piece.char := by
      simp [inside, laidOut, indent]
    rw [hchars, content_chars]
    rfl
  | cons n ns =>
    have hany : (inside depth (n :: ns)).any Piece.isElement = true := by
      simp [inside, laidOut, Piece.isElement]
    have hblank (m : Node) (hm : .element m ∈ inside depth (n :: ns)) : m.isBlank = false := by
      obtain hp | hp | ⟨m', hm', hp⟩ := mem_inside hm
      · cases hp
      · cases hp
      · obtain rfl := Piece.element.inj hp
        exact h m hm'
    rw [content, if_pos hany, filter_runs _ isSpace_of_mem_inside hblank (List.forall_mem_nil _),
      filterMap_inside]
    rfl

mutual

/-- What is read of an item that stands at a depth. -/
def Item.node (entities : Entities) (depth : Nat) : Item → Node
  | .bare name attributes => .element name attributes []
  | .field name attributes text => .element name attributes (textNode text.toList)
  | .group name attributes items =>
    .element name attributes (grouped depth (Item.nodes entities (depth + 1) items))
  | .reference entity => match referenced? entities entity.toList with
    | some [.element n] => n
    | _ => .text ""

def Item.nodes (entities : Entities) (depth : Nat) : List Item → List Node
  | [] => []
  | i :: is => i.node entities depth :: Item.nodes entities depth is

end

theorem Item.nodes_eq_map (entities : Entities) (depth : Nat) (items : List Item) :
    Item.nodes entities depth items = items.map (Item.node entities depth) := by
  induction items with
  | nil => rfl
  | cons i is ih => rw [Item.nodes, ih, List.map_cons]

/-- Every name stands for one element. -/
structure Declares (entities : Entities) (names : List String) : Prop where
  name : ∀ e ∈ names, isName e.toList = true
  element : ∀ e ∈ names, ∃ n, referenced? entities e.toList = some [.element n] ∧ n.isBlank = false

section
variable {entities : Entities} {names : List String}

theorem Item.Sound.node_isBlank (hd : Declares entities names) {i : Item} (h : i.Sound names)
    (depth : Nat) : (i.node entities depth).isBlank = false := by
  cases h with
  | bare tag | field tag legal | group tag sound => rfl
  | reference declared =>
    obtain ⟨n, hn, hblank⟩ := hd.element _ declared
    rw [Item.node, hn]
    exact hblank

theorem reads_line (depth : Nat) {text : List Char} {b b' : Building}
    (h : Reads entities text (b.add (indent depth)) b') :
    Reads entities (line depth text) b (b'.add [.char '\n']) :=
  (reads_spaces (2 * depth)).append (h.append (reads_char (by decide)))

/-- Items read one by one are read together. -/
theorem reads_allMarks {items : List Item} {b : Building} {depth : Nat}
    (h : ∀ i ∈ items, ∀ b : Building, b.frames ≠ [] →
      Reads entities (layout depth i.marks) b (b.add (laidOut depth [i.node entities depth])))
    (hb : b.frames ≠ []) :
    Reads entities (layout depth (Item.allMarks items)) b
      (b.add (laidOut depth (Item.nodes entities depth items))) := by
  induction items generalizing b with
  | nil => simpa [Item.allMarks, layout, Item.nodes, laidOut, Building.add] using Reads.nil
  | cons i is ih =>
    rw [List.forall_mem_cons] at h
    have hi := h.1 b hb
    have his := @ih (b.add (laidOut depth [i.node entities depth])) h.2 hb
    have hsplit : laidOut depth (Item.nodes entities depth (i :: is)) =
        laidOut depth [i.node entities depth] ++ laidOut depth (Item.nodes entities depth is) := by
      simp [laidOut, Item.nodes]
    rw [Building.add_add, ← hsplit] at his
    rw [Item.allMarks, (Item.balanced i).layout_append]
    exact hi.append his

/-- From behind its opening tag on, an element takes its items and is closed. -/
theorem reads_inside (hd : Declares entities names) {name : String}
    (hname : isName name.toList = true) (attributes : List (String × String)) {items : List Item}
    (hs : ∀ i ∈ items, i.Sound names) (depth : Nat)
    (h : ∀ i ∈ items, ∀ b : Building, b.frames ≠ [] →
      Reads entities (layout (depth + 1) i.marks) b
        (b.add (laidOut (depth + 1) [i.node entities (depth + 1)])))
    (before : List Piece) (frames : List Frame) :
    Reads entities ('\n' :: (layout (depth + 1) (Item.allMarks items) ++ line depth (tagEnd name)))
      ⟨[], ⟨name, attributes, before⟩ :: frames⟩
      ⟨before ++ [.element ((Item.group name attributes items).node entities depth), .char '\n'],
        frames⟩ := by
  have hblank : ∀ n ∈ Item.nodes entities (depth + 1) items, n.isBlank = false := by
    rw [Item.nodes_eq_map, List.forall_mem_map]
    exact fun i hi => (hs i hi).node_isBlank hd (depth + 1)
  have hbreak : Reads entities ['\n'] ⟨[], ⟨name, attributes, before⟩ :: frames⟩
      ⟨[.char '\n'], ⟨name, attributes, before⟩ :: frames⟩ :=
    reads_char (by decide)
  have hitems := reads_allMarks (b := ⟨[.char '\n'], ⟨name, attributes, before⟩ :: frames⟩) h
    (List.cons_ne_nil _ _)
  have hcloses : Reads entities (tagEnd name)
      ⟨inside depth (Item.nodes entities (depth + 1) items), ⟨name, attributes, before⟩ :: frames⟩
      ⟨before ++ [.element ((Item.group name attributes items).node entities depth)], frames⟩ := by
    rw [Item.node, ← content_inside depth hblank]
    exact reads_closes hname
  have hline := reads_line (b := ⟨.char '\n' :: laidOut (depth + 1) (Item.nodes entities (depth + 1)
    items), ⟨name, attributes, before⟩ :: frames⟩) depth hcloses
  have hall := hbreak.append (hitems.append hline)
  simpa [Building.add] using hall

/-- Reading a sound item in an open element adds its node and its layout. -/
theorem Item.Sound.reads (hd : Declares entities names) {i : Item} (h : i.Sound names) :
    ∀ (depth : Nat) (b : Building), b.frames ≠ [] →
      Reads entities (layout depth i.marks) b (b.add (laidOut depth [i.node entities depth])) := by
  have hone (depth : Nat) {text : List Char} {n : Node} {b : Building}
      (hr : Reads entities text (b.add (indent depth)) ((b.add (indent depth)).add [.element n])) :
      Reads entities (line depth text ++ []) b (b.add (laidOut depth [n])) := by
    have hline := reads_line depth hr
    rw [Building.add_add, Building.add_add] at hline
    simpa [laidOut] using hline
  induction h with
  | bare tag =>
    intro depth b _
    exact hone depth (reads_bare tag)
  | @field name attributes content tag legal =>
    intro depth b _
    exact hone depth (reads_field tag content.toList)
  | @reference entity declared =>
    intro depth b hb
    obtain ⟨n, hn, -⟩ := hd.element entity declared
    have hword : ∀ c ∈ entity.toList, isReferenceChar c = true := by
      intro c hc
      simp [isReferenceChar, isNameChar_of_isName (hd.name entity declared) c hc]
    rw [Item.node, hn]
    exact hone depth (reads_reference hword hn hb)
  | @group name attributes items tag sound ih =>
    intro depth b hb
    have hopens : Reads entities (tagStart name attributes ++ ['>']) (b.add (indent depth))
        ⟨[], ⟨name, attributes, b.pieces ++ indent depth⟩ :: b.frames⟩ :=
      reads_opens tag
    have hinside := reads_inside hd tag.name attributes sound depth
      (fun i hi => ih i hi (depth + 1)) (b.pieces ++ indent depth) b.frames
    have hall := (reads_spaces (2 * depth)).append (hopens.append hinside)
    rw [layout_group]
    simpa [Building.add, laidOut] using hall

/-- A root is read in the same way behind whatever blanks. -/
theorem reads_root (hd : Declares entities names) {name : String}
    {attributes : List (String × String)} {items : List Item}
    (h : (Item.group name attributes items).Sound names) :
    ∃ us, scan .content (layout 0 (Item.group name attributes items).marks) =
        some (.content, .opens name attributes :: us) ∧
      ∀ before, (Token.opens name attributes :: us).foldlM (fill entities) ⟨before, []⟩ =
        some ⟨before ++ [.element ((Item.group name attributes items).node entities 0), .char '\n'],
          []⟩ := by
  cases h with
  | group tag sound =>
    have hinside (before : List Piece) := reads_inside hd tag.name attributes sound 0
      (fun i hi => (sound i hi).reads hd 1) before []
    obtain ⟨us, hscan, -⟩ := hinside []
    refine ⟨us, ?_, fun before => ?_⟩
    · rw [layout_group]
      exact scan_append (scan_opens tag) hscan
    · obtain ⟨vs, hscan', hfill⟩ := hinside before
      obtain rfl : us = vs := by
        rw [hscan] at hscan'
        simpa using hscan'
      rw [List.foldlM_cons]
      simpa [fill, tag.distinct] using hfill

end
end StyledMap.Xml
