import StyledMap.Files.Tree

/-! What changes to a tree leave alone. Nothing is ever taken away: a directory stays one, a file stays one
and keeps its bytes if it is not written, so paths lead where they led. -/
namespace StyledMap.Files.Tree
variable {t t' t'' : Tree} {place q : Place} {n : Node} {p : Path}

theorem lookup_filter {l : List (Place × Node)} (h : q ≠ place) :
    (l.filter (fun e => e.1 != place)).lookup q = l.lookup q := by
  induction l with
  | nil => rfl
  | cons e l ih =>
    by_cases he : e.1 = place
    · have hq : (q == e.1) = false := by simpa [he] using h
      rw [List.filter_cons_of_neg (by simp [he]), ih, List.lookup_cons, hq]
    · rw [List.filter_cons_of_pos (by simp [he]), List.lookup_cons, List.lookup_cons, ih]

theorem node?_put_of_ne (t : Tree) (h : q ≠ place) (n : Node) : (t.put place n).node? q = t.node? q := by
  cases q with
  | nil => rfl
  | cons s ss =>
    have hne : (s :: ss == place) = false := by simpa using h
    have hlookup : ((place, n) :: t.nodes.filter (fun e => e.1 != place)).lookup (s :: ss) =
        t.nodes.lookup (s :: ss) := by
      rw [List.lookup_cons, hne]
      exact lookup_filter h
    exact hlookup

/-- All directories of a tree are still there, and all files with their bytes, but for the one at `written`. -/
structure Grows (written : Place) (t t' : Tree) : Prop where
  working : t'.working = t.working
  directory : ∀ q, t.node? q = some .directory → t'.node? q = some .directory
  file : ∀ q bytes, t.node? q = some (.file bytes) → q ≠ written → t'.node? q = some (.file bytes)

section
variable {written : Place}

theorem Grows.refl (written : Place) (t : Tree) : Grows written t t :=
  ⟨rfl, fun _ h => h, fun _ _ h _ => h⟩

theorem Grows.trans (h : Grows written t t') (h' : Grows written t' t'') : Grows written t t'' where
  working := h'.working.trans h.working
  directory q hq := h'.directory q (h.directory q hq)
  file q bytes hq hne := h'.file q bytes (h.file q bytes hq hne) hne

theorem node?_ne_nil (h : t.node? place ≠ some .directory) : place ≠ [] := by
  rintro rfl
  exact h rfl

/-- A place that was free takes a directory. -/
theorem grows_put_directory (h : t.node? place = none) :
    Grows written t (t.put place .directory) := by
  have hother {n : Node} (q : Place) (hq : t.node? q = some n) : q ≠ place := by
    rintro rfl
    rw [h] at hq
    cases hq
  have hkeep {n : Node} (q : Place) (hq : t.node? q = some n) :
      (t.put place .directory).node? q = some n := by
    rw [node?_put_of_ne t (hother q hq), hq]
  exact ⟨rfl, hkeep, fun q bytes hq _ => hkeep q hq⟩

theorem grows_put_file (h : t.node? written ≠ some .directory) (bytes : ByteArray) :
    Grows written t (t.put written (.file bytes)) where
  working := rfl
  directory q hq := by
    have hne : q ≠ written := by
      rintro rfl
      exact h hq
    rw [node?_put_of_ne t hne, hq]
  file q _ hq hne := by rw [node?_put_of_ne t hne, hq]

theorem Grows.walk (h : Grows written t t') {ss : List (List Char)} (hw : t.walk place ss = .ok q) :
    t'.walk place ss = .ok q := by
  induction ss generalizing place with
  | nil => exact hw
  | cons s ss ih =>
    unfold Tree.walk at hw ⊢
    cases hn : t.node? place with
    | none => simp [hn] at hw
    | some n =>
      cases n with
      | file bytes => simp [hn] at hw
      | directory =>
        simp only [hn] at hw
        simp only [h.directory place hn]
        by_cases hstay : s = [] ∨ s = ['.']
        · rw [if_pos hstay] at hw ⊢
          exact ih hw
        · rw [if_neg hstay] at hw ⊢
          by_cases hup : s = ['.', '.']
          · rw [if_pos hup] at hw ⊢
            exact ih hw
          · rw [if_neg hup] at hw ⊢
            by_cases hlong : nameLimit < (String.ofList s).utf8ByteSize
            · rw [if_pos hlong] at hw
              cases hw
            · rw [if_neg hlong] at hw ⊢
              exact ih hw

theorem Grows.find (h : Grows written t t') (hf : t.find p = .ok q) : t'.find p = .ok q := by
  unfold Tree.find walkFrom at hf ⊢
  cases hc : check p with
  | error f => simp [hc] at hf
  | ok u =>
    simp only [hc, h.working] at hf ⊢
    exact h.walk hf

end

/-- The path leads to a file with these bytes. -/
structure Holds (t : Tree) (p : Path) (place : Place) (bytes : ByteArray) : Prop where
  find : t.find p = .ok place
  slash : endsInSlash p = false
  node : t.node? place = some (.file bytes)

theorem read_eq_ok {bytes : ByteArray} : t.read p = .ok bytes ↔ ∃ place, t.Holds p place bytes := by
  unfold read found?
  constructor
  · intro h
    cases hf : t.find p with
    | error f => simp [hf] at h
    | ok place =>
      cases hn : t.node? place with
      | none => simp [hf, hn] at h
      | some n =>
        cases n with
        | directory => simp [hf, hn] at h
        | file bytes' =>
          cases hs : endsInSlash p with
          | true => simp [hf, hn, hs] at h
          | false =>
            obtain rfl : bytes' = bytes := by simpa [hf, hn, hs] using h
            exact ⟨place, hf, hs, hn⟩
  · rintro ⟨place, hf, hs, hn⟩
    simp [hf, hn, hs]

/-- What a write finds at a place: nothing counts as an empty file. -/
def bytesAt (t : Tree) (place : Place) : ByteArray :=
  match t.node? place with
  | some (.file bytes) => bytes
  | _ => ByteArray.empty

theorem writeWith_eq_ok {change : ByteArray → ByteArray} : t.writeWith p change = .ok t' ↔
    ∃ place, t.find p = .ok place ∧ endsInSlash p = false ∧ t.node? place ≠ some .directory ∧
      t' = t.put place (.file (change (t.bytesAt place))) := by
  unfold writeWith bytesAt
  constructor
  · intro h
    cases hs : endsInSlash p with
    | true => cases hf : t.findAround p <;> simp [hs, hf] at h
    | false =>
      cases hf : t.find p with
      | error f => simp [hs, hf] at h
      | ok place =>
        refine ⟨place, rfl, rfl, ?_⟩
        cases hn : t.node? place with
        | none => simpa [hs, hf, hn, eq_comm] using h
        | some n =>
          cases n with
          | directory => simp [hs, hf, hn] at h
          | file bytes => simpa [hs, hf, hn, eq_comm] using h
  · rintro ⟨place, hf, hs, hn, rfl⟩
    cases hnode : t.node? place with
    | none => simp [hs, hf, hnode]
    | some n =>
      cases n with
      | directory => exact absurd hnode hn
      | file bytes => simp [hs, hf, hnode]

/-- A write leaves what it wrote where the path leads, and all else as it was. -/
theorem writeWith_holds {change : ByteArray → ByteArray} (h : t.writeWith p change = .ok t') :
    ∃ place, t.find p = .ok place ∧ Grows place t t' ∧ t'.Holds p place (change (t.bytesAt place)) := by
  obtain ⟨place, hf, hs, hn, rfl⟩ := writeWith_eq_ok.1 h
  have hgrows := grows_put_file hn (change (t.bytesAt place))
  exact ⟨place, hf, hgrows, hgrows.find hf, hs, node?_put_self t (node?_ne_nil hn) _⟩

/-- What a path leads to can be written. -/
theorem Holds.writeWith {bytes : ByteArray} (h : t.Holds p place bytes)
    (change : ByteArray → ByteArray) : ∃ t', t.writeWith p change = .ok t' ∧ Grows place t t' ∧
      t'.Holds p place (change bytes) := by
  have hfree : t.node? place ≠ some .directory := by
    rw [h.node]
    simp
  have hbytes : t.bytesAt place = bytes := by
    rw [bytesAt, h.node]
  have hwrite : t.writeWith p change = .ok (t.put place (.file (change (t.bytesAt place)))) :=
    writeWith_eq_ok.2 ⟨place, h.find, h.slash, hfree, rfl⟩
  obtain ⟨q, hq, hgrows, hholds⟩ := writeWith_holds hwrite
  obtain rfl : place = q := Except.ok.inj (h.find.symm.trans hq)
  rw [hbytes] at hwrite hgrows hholds
  exact ⟨_, hwrite, hgrows, hholds⟩

theorem makeDirectory_grows (written : Place) (h : t.makeDirectory p = .ok t') : Grows written t t' := by
  unfold makeDirectory at h
  cases hf : t.find p with
  | error f => simp [hf] at h
  | ok place =>
    cases hn : t.node? place with
    | some n => simp [hf, hn] at h
    | none =>
      obtain rfl : t.put place .directory = t' := by simpa [hf, hn] using h
      exact grows_put_directory hn

/-- A file that is not the one written to is still found, with its bytes. -/
theorem Grows.holds {written : Place} {bytes : ByteArray} (h : Grows written t t')
    (hp : t.Holds p place bytes) (hne : place ≠ written) : t'.Holds p place bytes :=
  ⟨h.find hp.find, hp.slash, h.file place bytes hp.node hne⟩

end StyledMap.Files.Tree
