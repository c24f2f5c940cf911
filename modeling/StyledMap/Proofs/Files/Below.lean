import Mathlib.Data.List.Basic
import StyledMap.Files.Path

/-! What a path says below another one, and the path that it names there. Both are texts, so that what is
left out of them (slashes in a row, single dots, a slash at the end) must not count for a part. -/
namespace StyledMap.Path

theorem filterMap_dropEmpty (ss : List (List Char)) :
    (dropEmpty ss).filterMap partOf? = ss.filterMap partOf? := by
  induction ss with
  | nil => rfl
  | cons s ss ih =>
    rw [dropEmpty]
    split
    · rename_i h
      rw [ih, List.filterMap_cons_none (Option.isNone_iff_eq_none.1 h)]
    · rfl

theorem filterMap_trimEnd (ss : List (List Char)) :
    (trimEnd ss).filterMap partOf? = ss.filterMap partOf? := by
  rw [trimEnd, List.filterMap_reverse, filterMap_dropEmpty, List.filterMap_reverse,
    List.reverse_reverse]

theorem dropEmpty_suffix (ss : List (List Char)) : dropEmpty ss <:+ ss := by
  induction ss with
  | nil => exact List.suffix_rfl
  | cons s ss ih =>
    rw [dropEmpty]
    split
    · exact ih.trans (List.suffix_cons s ss)
    · exact List.suffix_rfl

theorem trimEnd_prefix (ss : List (List Char)) : trimEnd ss <+: ss := by
  simpa [trimEnd] using List.reverse_prefix.2 (dropEmpty_suffix ss.reverse)

theorem partOf?_of_head?_dropEmpty {s : List Char} {ss : List (List Char)}
    (h : (dropEmpty ss).head? = some s) : (partOf? s).isSome := by
  induction ss with
  | nil => simp [dropEmpty] at h
  | cons r ss ih =>
    rw [dropEmpty] at h
    split at h
    · exact ih h
    · rename_i hr
      obtain rfl : r = s := by simpa using h
      simpa [Option.isSome_iff_ne_none] using hr

/-- What follows some parts has the other ones. -/
theorem after?_eq_some {ps : List Part} {ss rest : List (List Char)} (h : after? ps ss = some rest) :
    ss.filterMap partOf? = ps ++ rest.filterMap partOf? ∧ rest <:+ ss := by
  induction ps, ss using after?.induct with
  | case1 ss =>
    obtain rfl : ss = rest := by simpa [after?] using h
    exact ⟨rfl, List.suffix_rfl⟩
  | case2 => simp [after?] at h
  | case3 p ps s ss hs ih =>
    simp only [after?, hs] at h
    obtain ⟨hparts, hrest⟩ := ih h
    exact ⟨by rw [List.filterMap_cons_none hs, hparts], hrest.trans (List.suffix_cons s ss)⟩
  | case4 ps s ss q hs ih =>
    simp only [after?, hs, if_true] at h
    obtain ⟨hparts, hrest⟩ := ih h
    exact ⟨by rw [List.filterMap_cons_some hs, hparts, List.cons_append],
      hrest.trans (List.suffix_cons s ss)⟩
  | case5 p ps s ss q hs hne => simp [after?, hs, hne] at h

/-- Segments that start with those of some parts are not refused. -/
theorem after?_append (ss rest : List (List Char)) :
    (after? (ss.filterMap partOf?) (ss ++ rest)).isSome := by
  induction ss with
  | nil => simp [after?]
  | cons s ss ih =>
    cases hs : partOf? s with
    | some q => simpa [after?, hs] using ih
    | none =>
      rw [List.filterMap_cons_none hs]
      cases hps : ss.filterMap partOf? with
      | nil => simp [after?]
      | cons p ps =>
        rw [hps] at ih
        simpa [after?, hs] using ih

theorem isAbsolute_of_front?_none {p : Path} (h : p.front? = none) : p.isAbsolute = false := by
  cases ha : p.isAbsolute with
  | false => rfl
  | true => simp [front?, ha] at h

section spelled
variable {ss : List (List Char)} (hsep : ∀ s ∈ ss, '/' ∉ s)
include hsep

theorem segments_spell (hne : ss ≠ []) : (⟨spell ss⟩ : Path).segments = ss := by
  rw [segments, spell, String.toList_ofList, Text.split_intercalate hne hsep]

theorem filterMap_segments_spell :
    (⟨spell ss⟩ : Path).segments.filterMap partOf? = ss.filterMap partOf? := by
  cases ss with
  | nil => rfl
  | cons s ss => rw [segments_spell hsep (List.cons_ne_nil s ss)]

/-- A text that starts with a part is not taken for more than that. -/
theorem front?_spell (hhead : ∀ s, ss.head? = some s → (partOf? s).isSome) :
    (⟨spell ss⟩ : Path).front? = none := by
  cases ss with
  | nil => rfl
  | cons s ss =>
    have hseg := segments_spell hsep (List.cons_ne_nil s ss)
    have hs := hhead s rfl
    have hrelative : (⟨spell (s :: ss)⟩ : Path).isAbsolute = false := by
      refine Bool.eq_false_iff.2 (fun ha => ?_)
      obtain ⟨cs, hcs⟩ := List.head?_eq_some_iff.1 (of_decide_eq_true ha)
      rw [segments, hcs, Text.split_sep, List.cons.injEq] at hseg
      rw [← hseg.1] at hs
      exact absurd hs (by decide)
    have hdot : s ≠ ['.'] := by
      rintro rfl
      exact absurd hs (by decide)
    simp [front?, hrelative, hseg, hdot]

end spelled

/-- What `p` says below `base` names the other parts of `p`. -/
theorem below?_eq_some {base p : Path} {rest : String} (h : base.below? p = some rest) :
    (⟨rest⟩ : Path).front? = none ∧
      p.parts = base.parts ++ (⟨rest⟩ : Path).segments.filterMap partOf? := by
  unfold below? at h
  split at h
  · rename_i hfront
    obtain ⟨ss, hafter, rfl⟩ := Option.map_eq_some_iff.1 h
    obtain ⟨hparts, hsuffix⟩ := after?_eq_some hafter
    have hkept : trimEnd (dropEmpty ss) <+: dropEmpty ss := trimEnd_prefix _
    have hsep : ∀ s ∈ trimEnd (dropEmpty ss), '/' ∉ s := fun s hs =>
      Text.not_mem_of_mem_split (hsuffix.mem ((dropEmpty_suffix ss).mem (hkept.mem hs)))
    refine ⟨front?_spell hsep (fun s hs => ?_), ?_⟩
    · obtain ⟨more, hmore⟩ := hkept
      have hhead : (dropEmpty ss).head? = some s := by
        rw [← hmore, List.head?_append, hs, Option.some_or]
      exact partOf?_of_head?_dropEmpty hhead
    · rw [filterMap_segments_spell hsep, filterMap_trimEnd, filterMap_dropEmpty, parts, parts, hparts,
        hfront, List.append_assoc]
  · cases h

/-- Segments of a joined path: those of the lower path after those of the base, whose last slash counts
once. -/
theorem segments_join {base q : Path} (hbase : base.text ≠ "") (hq : q.isAbsolute = false) :
    ∃ ss, ss ≠ [] ∧ (base.segments = ss ∨ base.segments = ss ++ [[]]) ∧
      (base.join q).segments = ss ++ q.segments := by
  unfold join
  rw [hq, if_neg Bool.false_ne_true, if_neg hbase]
  split
  · rename_i hlast
    obtain ⟨cs, hcs⟩ := List.getLast?_eq_some_iff.1 hlast
    refine ⟨Text.split '/' cs, Text.split_ne_nil '/' cs, .inr ?_, ?_⟩
    · rw [segments, hcs, Text.split_append_sep]
      rfl
    · rw [segments, String.toList_append, hcs, List.append_assoc, List.singleton_append,
        Text.split_append_sep, segments]
  · refine ⟨base.segments, Text.split_ne_nil '/' _, .inl rfl, ?_⟩
    rw [segments, String.toList_append, String.toList_append, List.append_assoc]
    exact Text.split_append_sep '/' _ _

theorem isAbsolute_join {base q : Path} (hbase : base.text ≠ "") (hq : q.isAbsolute = false) :
    (base.join q).isAbsolute = base.isAbsolute := by
  have hne : base.text.toList ≠ [] := by simpa using hbase
  have hhead (cs : List Char) : (base.text.toList ++ cs).head? = base.text.toList.head? :=
    List.head?_append_of_ne_nil _ hne
  unfold join
  rw [hq, if_neg Bool.false_ne_true, if_neg hbase]
  split <;> simp [isAbsolute, hhead]

theorem front?_join {base q : Path} (hbase : base.text ≠ "") (hq : q.isAbsolute = false) :
    (base.join q).front? = base.front? := by
  obtain ⟨ss, hne, hown, hjoined⟩ := segments_join hbase hq
  have hhead : (base.join q).segments.head? = base.segments.head? := by
    rw [hjoined, List.head?_append_of_ne_nil _ hne]
    obtain hown | hown := hown
    · rw [hown]
    · rw [hown, List.head?_append_of_ne_nil _ hne]
  rw [front?, front?, isAbsolute_join hbase hq, hhead]

theorem parts_join {base q : Path} (hbase : base.text ≠ "") (hq : q.isAbsolute = false) :
    (base.join q).parts = base.parts ++ q.segments.filterMap partOf? := by
  obtain ⟨ss, -, hown, hjoined⟩ := segments_join hbase hq
  have hsame : base.segments.filterMap partOf? = ss.filterMap partOf? := by
    obtain hown | hown := hown
    · rw [hown]
    · simp [hown, partOf?]
  rw [parts, parts, front?_join hbase hq, hjoined, List.filterMap_append, hsame, List.append_assoc]

theorem join_of_empty {base : Path} (h : base.text = "") (q : Path) : base.join q = q := by
  unfold join
  rw [if_pos h, ite_self]

/-- A base stands in front of all relative paths in the same way. -/
theorem exists_join (base : Path) :
    ∃ front, ∀ q : Path, q.isAbsolute = false → base.join q = ⟨front ++ q.text⟩ := by
  by_cases hbase : base.text = ""
  · exact ⟨"", fun q _ => by rw [join_of_empty hbase, String.empty_append]⟩
  · by_cases hlast : base.text.toList.getLast? = some '/'
    · exact ⟨base.text, fun q hq => by simp [join, hq, hbase, hlast]⟩
    · exact ⟨base.text ++ "/", fun q hq => by simp [join, hq, hbase, hlast]⟩

/-- Joining one name after the other is joining them both at once. -/
theorem join_join {base q r : Path} {c : Char} (hq : q.isAbsolute = false)
    (hlast : q.text.toList.getLast? = some c) (hc : c ≠ '/') (hr : r.isAbsolute = false) :
    (base.join q).join r = base.join ⟨q.text ++ "/" ++ r.text⟩ := by
  obtain ⟨front, hfront⟩ := exists_join base
  have hne : q.text.toList ≠ [] := fun he => by simp [he] at hlast
  have hboth : (⟨q.text ++ "/" ++ r.text⟩ : Path).isAbsolute = false := by
    rw [isAbsolute, String.toList_append, String.toList_append, List.append_assoc,
      List.head?_append_of_ne_nil _ hne]
    exact hq
  have hend : (front ++ q.text).toList.getLast? = some c := by
    rw [String.toList_append, List.getLast?_append_of_ne_nil _ hne, hlast]
  have hjoined : front ++ q.text ≠ "" := fun he => by simp [he] at hend
  rw [hfront q hq, hfront _ hboth]
  unfold join
  rw [hr, if_neg Bool.false_ne_true, if_neg hjoined, if_neg (by rw [hend]; simpa using hc)]
  simp only [String.append_assoc]

/-- What a path says below another one leads back to it. -/
theorem join_below? {base p : Path} {rest : String} (h : base.below? p = some rest) :
    (base.join ⟨rest⟩).parts = p.parts := by
  obtain ⟨hfront, hparts⟩ := below?_eq_some h
  by_cases hbase : base.text = ""
  · obtain ⟨_⟩ := base
    subst hbase
    rw [join_of_empty rfl, hparts, parts, hfront]
    rfl
  · rw [parts_join hbase (isAbsolute_of_front?_none hfront), hparts]

/-- A joined path stands below its base. -/
theorem below?_join {base q : Path} (hbase : base.text ≠ "") (hq : q.isAbsolute = false) :
    (base.below? (base.join q)).isSome := by
  obtain ⟨ss, -, hown, hjoined⟩ := segments_join hbase hq
  rw [below?, if_pos (front?_join hbase hq).symm, Option.isSome_map, hjoined]
  obtain hown | hown := hown
  · rw [hown]
    exact after?_append ss q.segments
  · rw [hown, List.filterMap_append]
    simpa [partOf?] using after?_append ss q.segments

/-- A joined path that does not stand below its base starts from a root or a dot: the lower path is absolute,
or the base is empty. -/
theorem front?_of_not_below {base q : Path} (h : base.below? (base.join q) = none) :
    (base.join q).front? ≠ none := by
  intro hfront
  cases hq : q.isAbsolute with
  | true =>
    have hjoined : base.join q = q := by rw [join, hq, if_pos rfl]
    rw [hjoined] at hfront
    rw [isAbsolute_of_front?_none hfront] at hq
    cases hq
  | false =>
    by_cases hbase : base.text = ""
    · obtain ⟨_⟩ := base
      subst hbase
      have hempty : (⟨""⟩ : Path).front? = none := rfl
      rw [below?, hfront, hempty, if_pos rfl, Option.map_eq_none_iff] at h
      exact absurd (after?_append [] _) (by simpa [segments, Text.split, partOf?] using h)
    · exact absurd (below?_join hbase hq) (by simp [h])

theorem front?_of_empty {p : Path} (h : p.text = "") : p.front? = none := by
  obtain ⟨_⟩ := p
  subst h
  rfl

/-- A text that starts with another name than a dot starts from nothing. -/
theorem front?_of_name {p : Path} {c : Char} {cs : List Char} (h : p.text.toList = c :: '/' :: cs)
    (hslash : c ≠ '/') (hdot : c ≠ '.') : p.front? = none := by
  have hsegments : p.segments = [c] :: Text.split '/' cs := by
    rw [segments, h, ← List.singleton_append, Text.split_append_sep,
      Text.split_of_not_mem (by simpa using Ne.symm hslash), List.singleton_append]
  simp [front?, isAbsolute, h, hslash, hsegments, hdot]

end StyledMap.Path
