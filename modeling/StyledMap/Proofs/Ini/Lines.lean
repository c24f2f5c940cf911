import Mathlib.Data.List.Forall2
import StyledMap.Ini.Printer
import StyledMap.Ini.Reader
import StyledMap.Proofs.Text.Firm

/-! What written lines are read as. Writing escapes nothing while reading undoes escapes, so a value comes
back as it was only if it is plain: without a character that the reader takes for an escape, a quote or
the end of a line. -/
namespace StyledMap.Ini
open Text (isBlank Firm)

/-- No blanks at the ends, no quote in front, no escape and no end of a line. -/
structure PlainValue (s : String) : Prop where
  trimmed : Text.trim s.toList = s.toList
  unquoted : ∀ c ∈ s.toList.head?, isQuote c = false
  chars : ∀ c ∈ s.toList, isLineEnd c = false ∧ c ≠ '\\'

instance (s : String) : Decidable (PlainValue s) :=
  decidable_of_iff (Text.trim s.toList = s.toList ∧ s.toList.head?.all (fun c => !isQuote c) ∧
    ∀ c ∈ s.toList, isLineEnd c = false ∧ c ≠ '\\')
    ⟨fun ⟨ht, hu, hc⟩ => ⟨ht, by simpa [Option.all_eq_true] using hu, hc⟩,
      fun h => ⟨h.trimmed, by simpa [Option.all_eq_true] using h.unquoted, h.chars⟩⟩

/-- A key that starts neither a remark nor a heading, nor with a byte order mark. -/
structure PlainKey (s : String) : Prop where
  firm : Firm s.toList
  first : ∀ c ∈ s.toList.head?, c ∉ [';', '#', '[', '\ufeff']
  chars : ∀ c ∈ s.toList, isAssign c = false ∧ c ≠ '\\'

structure PlainName (s : String) : Prop where
  trimmed : Text.trim s.toList = s.toList
  chars : ∀ c ∈ s.toList, (c == ']') = false ∧ c ≠ '\\'

/-- A value that stands alone behind its key and means another one, whatever follows its line. -/
def ReadAs (written meant : String) : Prop :=
  ∀ rest, value? (' ' :: (written.toList ++ '\n' :: rest)) = some (meant.toList, '\n' :: rest)

/-- Lines that differ in nothing but what their values mean. -/
inductive Line.ReadAs : Line → Line → Prop where
  | heading {name : String} (h : PlainName name) : ReadAs (.heading name) (.heading name)
  | entry {key written meant : String} (h : PlainKey key) (hvalue : Ini.ReadAs written meant) :
    ReadAs (.entry key written) (.entry key meant)
  | remark {text : String} (h : '\n' ∉ text.toList) : ReadAs (.remark text) (.remark text)
  | blank : ReadAs .blank .blank

/-- What a line states, if anything. -/
def Line.statement? : Line → Option Statement
  | .heading name => some (.heading name)
  | .entry key value => some (.entry key value)
  | .remark _ | .blank => none

theorem toList_write_cons (l : Line) (lines : List Line) :
    (write (l :: lines)).toList = l.text.toList ++ '\n' :: (write lines).toList := by
  simp [write, String.join_cons]

theorem length_le_write (lines : List Line) : lines.length ≤ (write lines).toList.length := by
  induction lines with
  | nil => exact Nat.zero_le _
  | cons l lines ih =>
    rw [toList_write_cons, List.length_append, List.length_cons, List.length_cons]
    omega

theorem scan_append {stop : Char → Bool} {cs : List Char} (h : ∀ c ∈ cs, stop c = false ∧ c ≠ '\\')
    (rest : List Char) : scan stop (cs ++ rest) = cs.foldr Scan.cons (scan stop rest) := by
  induction cs with
  | nil => rfl
  | cons c cs ih =>
    obtain ⟨hc, hcs⟩ := List.forall_mem_cons.1 h
    rw [List.cons_append, scan_cons hc.1 hc.2, ih hcs, List.foldr_cons]

theorem foldr_cons_stopped (cs text rest : List Char) :
    cs.foldr Scan.cons (.stopped text rest) = .stopped (cs ++ text) rest := by
  induction cs with
  | nil => rfl
  | cons c cs ih =>
    rw [List.foldr_cons, ih]
    rfl

theorem scan_plain {stop : Char → Bool} {cs : List Char} (h : ∀ c ∈ cs, stop c = false ∧ c ≠ '\\')
    {e : Char} (he : stop e = true) (rest : List Char) :
    scan stop (cs ++ e :: rest) = .stopped cs (e :: rest) := by
  rw [scan_append h, scan_stop he, foldr_cons_stopped, List.append_nil]

theorem scan_escape {stop : Char → Bool} (hstop : stop '\\' = false) {c : Char} (hx : c ≠ 'x')
    (hn : c ≠ '\n') (rest : List Char) :
    scan stop ('\\' :: c :: rest) = (scan stop rest).cons (escaped c) := by
  simp [scan, scanFrom, hstop, hx, hn]

theorem ne_of_not_blank {c d : Char} (hc : isBlank c = false) (hd : isBlank d = true) : c ≠ d := by
  rintro rfl
  rw [hd] at hc
  cases hc

theorem isIndent_of_not_blank {c : Char} (h : isBlank c = false) : isIndent c = false := by
  simp [isIndent, ne_of_not_blank h (d := ' ') rfl, ne_of_not_blank h (d := '\t') rfl]

theorem isLineEnd_of_not_blank {c : Char} (h : isBlank c = false) : isLineEnd c = false := by
  simp [isLineEnd, ne_of_not_blank h (d := '\n') rfl, ne_of_not_blank h (d := '\r') rfl]

theorem plainValue_of_forall {s : String}
    (h : ∀ c ∈ s.toList, isBlank c = false ∧ isQuote c = false ∧ c ≠ '\\') : PlainValue s where
  trimmed := by
    by_cases hs : s.toList = []
    · rw [hs]
      rfl
    · exact (Text.firm_of_forall hs (fun c hc => (h c hc).1)).trim
  unquoted := fun c hc => (h c (List.mem_of_mem_head? hc)).2.1
  chars := fun c hc => ⟨isLineEnd_of_not_blank (h c hc).1, (h c hc).2.2⟩

/-- A value that no quote starts is what stands up to the end of its line. -/
theorem valueUpTo_bare {c : Char} {cs text rest : List Char} (hc : isQuote c = false)
    (hscan : scan isLineEnd (c :: cs) = .stopped text rest) (left : Nat) :
    valueUpTo left true (c :: cs) = some (Text.trim text, rest) := by
  unfold valueUpTo
  simp only [hc, hscan, if_true, if_false, Bool.false_eq_true]

/-- A value that starts with neither a blank nor a quote means what a scan finds up to the end of its line. -/
theorem readAs_of_scan {written meant : String} {c : Char} {cs t : List Char}
    (hwritten : written.toList = c :: cs) (hblank : isBlank c = false) (hquote : isQuote c = false)
    (hscan : ∀ rest, scan isLineEnd (c :: (cs ++ '\n' :: rest)) = .stopped t ('\n' :: rest))
    (hmeant : Text.trim t = meant.toList) : ReadAs written meant := by
  intro rest
  rw [value?, List.dropWhile_cons_of_pos (by decide), hwritten, List.cons_append,
    List.dropWhile_cons_of_neg (by simp [hblank]), valueUpTo_bare hquote (hscan rest), hmeant]

theorem PlainValue.readAs {s : String} (h : PlainValue s) : ReadAs s s := by
  have hscan := scan_plain h.chars (show isLineEnd '\n' = true from rfl)
  cases hs : s.toList with
  | nil =>
    intro rest
    have hrest := hscan rest
    rw [hs, List.nil_append] at hrest
    rw [value?, List.dropWhile_cons_of_pos (by decide), hs, List.nil_append,
      List.dropWhile_cons_of_neg (by decide), valueUpTo_bare (by decide) hrest]
    rfl
  | cons c cs =>
    have htrim := h.trimmed
    obtain ⟨d, ds, hd, hblank⟩ := (Text.firm_of_trim (by simp [hs]) htrim).first
    rw [hs] at hd hscan
    obtain ⟨rfl, rfl⟩ := List.cons.inj hd
    exact readAs_of_scan hs hblank (h.unquoted c (by rw [hs]; rfl)) hscan (hs ▸ htrim)

/-- A backslash in a value is lost, and the character behind it may become another one. -/
theorem readAs_escape {d c : Char} {p q : List Char} (hblank : isBlank d = false)
    (hquote : isQuote d = false) (hp : ∀ c ∈ d :: p, isLineEnd c = false ∧ c ≠ '\\') (hx : c ≠ 'x')
    (hn : c ≠ '\n') (hq : ∀ c ∈ q, isLineEnd c = false ∧ c ≠ '\\')
    (htrim : Text.trim (d :: p ++ escaped c :: q) = d :: p ++ escaped c :: q) :
    ReadAs (String.ofList (d :: p ++ '\\' :: c :: q)) (String.ofList (d :: p ++ escaped c :: q)) := by
  refine readAs_of_scan (t := d :: p ++ escaped c :: q) (String.toList_ofList ..) hblank hquote
    (fun rest => ?_) (by rw [htrim, String.toList_ofList])
  have hline : d :: (p ++ '\\' :: c :: q ++ '\n' :: rest) =
      d :: p ++ '\\' :: c :: (q ++ '\n' :: rest) := by
    simp
  have hbehind := scan_plain hq (show isLineEnd '\n' = true from rfl) rest
  refine (congrArg (scan isLineEnd) hline).trans ?_
  rw [scan_append hp, scan_escape (by decide) hx hn, hbehind]
  exact foldr_cons_stopped (d :: p) (escaped c :: q) ('\n' :: rest)

/-- A text whose first line is not indented. -/
def Flush (cs : List Char) : Prop := (cs.head?.map isIndent).getD false = false

theorem skip_newline {cs : List Char} (h : Flush cs) (fresh : Bool) :
    skip fresh ('\n' :: cs) = skip true cs := by
  have h : (cs.head?.map isIndent).getD false = false := h
  simp [skip, h, show isBlank '\n' = true from rfl]

theorem skip_of_not_blank {c : Char} (h : isBlank c = false) (fresh : Bool) (cs : List Char) :
    skip fresh (c :: cs) = (fresh, c :: cs) := by
  simp [skip, h]

theorem spaced_newline {cs : List Char} (h : Flush cs) (found : Option Statement) (fresh : Bool) :
    Step.spaced found fresh ('\n' :: cs) = .spaced found true cs := by
  rw [Step.spaced, Step.spaced, skip_newline h]

/-- The first character of a line, its end included. -/
theorem head_line {l m : Line} (h : l.ReadAs m) (rest : List Char) :
    ∃ c cs, l.text.toList ++ '\n' :: rest = c :: cs ∧ c ≠ '\ufeff' ∧
      (l ≠ .blank → isBlank c = false) ∧ isIndent c = false := by
  cases h with
  | @heading name h =>
    exact ⟨'[', name.toList ++ ']' :: '\n' :: rest, by simp [Line.text], by decide,
      fun _ => by decide, by decide⟩
  | @remark text h =>
    exact ⟨';', ' ' :: (text.toList ++ '\n' :: rest), by simp [Line.text], by decide,
      fun _ => by decide, by decide⟩
  | blank => exact ⟨'\n', rest, rfl, by decide, fun h => absurd rfl h, by decide⟩
  | @entry key written meant h hvalue =>
    obtain ⟨c, cs, hc, hblank⟩ := h.firm.first
    have hmark : c ≠ '\ufeff' := fun he => h.first c (by rw [hc]; rfl) (by simp [he])
    exact ⟨c, cs ++ ' ' :: '=' :: ' ' :: (written.toList ++ '\n' :: rest), by simp [Line.text, hc],
      hmark, fun _ => hblank, isIndent_of_not_blank hblank⟩

theorem flush_write {lines meant : List Line} (h : List.Forall₂ Line.ReadAs lines meant) :
    Flush (write lines).toList := by
  cases h with
  | nil => rfl
  | @cons l m lines _ hl =>
    obtain ⟨c, cs, hcs, -, -, hc⟩ := head_line hl (write lines).toList
    rw [toList_write_cons, hcs]
    exact hc

theorem heading?_plain {name : String} (h : PlainName name) {rest : List Char} (hrest : Flush rest) :
    heading? (name.toList ++ ']' :: '\n' :: rest) =
      some (.spaced (some (.heading name)) true rest) := by
  have hname : Text.trimmed name = name := by
    rw [Text.trimmed, h.trimmed, String.ofList_toList]
  rw [heading?, scan_plain h.chars (show (']' == ']') = true from rfl)]
  simp only [String.ofList_toList, hname, spaced_newline hrest]

theorem entry?_plain {key written meant : String} (hkey : PlainKey key) (hvalue : ReadAs written meant)
    {rest : List Char} (hrest : Flush rest) :
    entry? (key.toList ++ [' ']) ('=' :: ' ' :: (written.toList ++ '\n' :: rest)) =
      some (.spaced (some (.entry key meant)) true rest) := by
  have htrim : Text.trim (key.toList ++ [' ']) = key.toList := by
    rw [Text.trim, hkey.firm.trimLeft [' ']]
    exact (hkey.firm.trimRight [] [' ']).trans (List.append_nil _)
  have hne : key.toList ≠ [] := by
    obtain ⟨c, cs, hc, -⟩ := hkey.firm.first
    exact hc ▸ List.cons_ne_nil c cs
  unfold entry?
  rw [htrim, if_neg hne, List.drop_one, List.tail_cons, hvalue]
  simp only [String.ofList_toList, spaced_newline hrest]

theorem step?_entry {key written meant : String} (hkey : PlainKey key) (hvalue : ReadAs written meant)
    {rest : List Char} (hrest : Flush rest) :
    step? true ((Line.entry key written).text.toList ++ '\n' :: rest) =
      some (.spaced (some (.entry key meant)) true rest) := by
  obtain ⟨c, cs, hc, hblank⟩ := hkey.firm.first
  have hfirst := hkey.first c (by rw [hc]; rfl)
  have htext : (Line.entry key written).text.toList ++ '\n' :: rest =
      (key.toList ++ [' ']) ++ '=' :: ' ' :: (written.toList ++ '\n' :: rest) := by
    simp [Line.text]
  have hchars : ∀ c ∈ key.toList ++ [' '], isAssign c = false ∧ c ≠ '\\' :=
    List.forall_mem_append.2 ⟨hkey.chars, by decide⟩
  have hscan := scan_plain hchars (show isAssign '=' = true from rfl)
    (' ' :: (written.toList ++ '\n' :: rest))
  have hentry := entry?_plain hkey hvalue hrest
  simp only [List.mem_cons, not_or] at hfirst
  rw [htext]
  rw [hc, List.cons_append, List.cons_append] at hscan ⊢
  rw [hc, List.cons_append] at hentry
  simp only [step?, hfirst, isLineEnd_of_not_blank hblank, isIndent_of_not_blank hblank, hscan,
    hentry, or_self, if_false, Bool.false_eq_true]

theorem step?_remark {text : String} (h : '\n' ∉ text.toList) (rest : List Char) :
    step? true ((Line.remark text).text.toList ++ '\n' :: rest) = some (.spaced none true rest) := by
  have htext : (Line.remark text).text.toList ++ '\n' :: rest =
      ';' :: ' ' :: (text.toList ++ '\n' :: rest) := by
    simp [Line.text]
  have hline : nextLine (' ' :: (text.toList ++ '\n' :: rest)) = rest := by
    rw [nextLine, List.dropWhile_cons_of_pos (by decide), List.dropWhile_append_of_pos]
    · rfl
    · intro c hc
      exact bne_iff_ne.2 (fun he => h (he ▸ hc))
  rw [htext, step?, if_pos (by decide), if_pos rfl, hline]

/-- A line is read to its end as what it means. -/
theorem step?_line {l m : Line} (h : l.ReadAs m) {rest : List Char} (hrest : Flush rest) :
    step? true (l.text.toList ++ '\n' :: rest) = some (.spaced m.statement? true rest) := by
  cases h with
  | @heading name h =>
    have htext : (Line.heading name).text.toList ++ '\n' :: rest =
        '[' :: (name.toList ++ ']' :: '\n' :: rest) := by
      simp [Line.text]
    rw [htext, step?, if_neg (by decide), if_pos rfl, heading?_plain h hrest]
    rfl
  | entry h hvalue => exact step?_entry h hvalue hrest
  | remark h => exact step?_remark h rest
  | blank => rfl

/-- One step takes one line, and the blank lines behind it. -/
theorem statementsUpTo_line {l m : Line} (h : l.ReadAs m) {rest : List Char} (hrest : Flush rest)
    (n : Nat) :
    statementsUpTo (n + 1) true (l.text.toList ++ '\n' :: rest) =
      (statementsUpTo n (skip true rest).1 (skip true rest).2).map (m.statement?.toList ++ ·) := by
  rw [statementsUpTo, step?_line h hrest]
  rfl

section lines
variable {lines meant : List Line} (h : List.Forall₂ Line.ReadAs lines meant)
include h

/-- The induction is on the lines; a step has already taken the blank ones in front. -/
theorem statementsUpTo_skip_write {n : Nat} (hn : lines.length ≤ n) :
    statementsUpTo n (skip true (write lines).toList).1 (skip true (write lines).toList).2 =
      some (meant.filterMap Line.statement?) := by
  induction h generalizing n with
  | nil => cases n <;> rfl
  | @cons l m lines meant hl hlines ih =>
    have hflush := flush_write hlines
    rw [List.length_cons] at hn
    rw [toList_write_cons]
    by_cases hblank : l = .blank
    · subst hblank
      cases hl
      rw [show Line.blank.text.toList = [] from rfl, List.nil_append, skip_newline hflush]
      exact ih (by omega)
    · obtain ⟨c, cs, hcs, -, hc, -⟩ := head_line hl (write lines).toList
      rw [hcs, skip_of_not_blank (hc hblank), ← hcs]
      obtain ⟨k, rfl⟩ : ∃ k, n = k + 1 := ⟨n - 1, by omega⟩
      rw [statementsUpTo_line hl hflush, ih (by omega)]
      cases hs : m.statement? <;> simp [hs]

theorem statements?_write :
    statements? (write lines).toList = some (meant.filterMap Line.statement?) := by
  cases h with
  | nil => rfl
  | @cons l m lines meant hl hlines =>
    have hlength : lines.length + 1 ≤ (write (l :: lines)).toList.length :=
      length_le_write (l :: lines)
    obtain ⟨n, hn⟩ : ∃ n, (write (l :: lines)).toList.length = n + 1 :=
      ⟨(write (l :: lines)).toList.length - 1, by omega⟩
    rw [statements?, hn, toList_write_cons, statementsUpTo_line hl (flush_write hlines),
      statementsUpTo_skip_write hlines (by omega)]
    cases hs : m.statement? <;> simp [hs]

theorem dropMark_write : dropMark (write lines).toList = (write lines).toList := by
  cases h with
  | nil => rfl
  | @cons l m lines meant hl hlines =>
    obtain ⟨c, cs, hcs, hc, -⟩ := head_line hl (write lines).toList
    rw [toList_write_cons, hcs]
    unfold dropMark
    split
    · rename_i he
      exact absurd (List.cons.inj he).1 hc
    · rfl

/-- Written lines are read as the statements of the lines that they mean. -/
theorem read?_write : read? (write lines) = some (ofStatements (meant.filterMap Line.statement?)) := by
  rw [read?, dropMark_write h, statements?_write h]
  rfl

end lines

end StyledMap.Ini
