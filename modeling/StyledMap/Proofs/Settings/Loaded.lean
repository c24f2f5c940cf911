import StyledMap.Proofs.Settings.Paths
import StyledMap.Proofs.Steps
import StyledMap.Proofs.Text.Firm

/-! What is known of settings that were read from a file, whatever the file holds. -/
namespace StyledMap.Settings

/-- What a settings file can set. -/
structure Loaded (home : Option Path) (c : Settings) : Prop where
  library : ∀ p ∈ c.engine.library, Named home p
  resources : Named home c.engine.resources
  srs : c.render.srs ≠ ""
  background : c.render.background ≠ ""
  maxWidth : 0 < c.render.maxWidth ∧ c.render.maxWidth ≤ Text.maxUnsigned32
  maxHeight : 0 < c.render.maxHeight ∧ c.render.maxHeight ≤ Text.maxUnsigned32
  timeout : 0 < c.render.timeout ∧ c.render.timeout ≤ Text.maxUnsigned64
  log : Named home c.log

theorem nonblank?_ne {s t : String} (h : Text.nonblank? s = some t) : t ≠ "" := by
  unfold Text.nonblank? at h
  split at h
  · cases h
  · rename_i hne
    exact Option.some.inj h ▸ hne

theorem textOr_ne {d : String} (hd : d ≠ "") (given : Option String) : textOr d given ≠ "" := by
  unfold textOr
  cases h : given.bind Text.nonblank? with
  | none => exact hd
  | some t =>
    obtain ⟨s, -, hs⟩ := Option.bind_eq_some_iff.1 h
    exact nonblank?_ne hs

theorem named_of_mem {home : Option Path} {p : Path} {given : Option String}
    (h : (given.bind Text.nonblank?).map (expand home) = some p) : Named home p := by
  obtain ⟨t, ht, rfl⟩ := Option.map_eq_some_iff.1 h
  obtain ⟨s, -, hs⟩ := Option.bind_eq_some_iff.1 ht
  exact ⟨t, nonblank?_ne hs, rfl⟩

theorem pathOr_named {home : Option Path} {d : Path} (hd : Named home d) (given : Option String) :
    Named home (pathOr home d given) := by
  unfold pathOr
  cases h : (given.bind Text.nonblank?).map (expand home) with
  | none => exact hd
  | some p => exact named_of_mem h

theorem valueOr_ok {α : Type} {f : Ini} {group key : String} {read : String → Option α}
    {reason : String} {d a : α} (h : valueOr f group key read reason d = .ok a) :
    a = d ∨ ∃ v, read v = some a := by
  unfold valueOr at h
  split at h
  · exact .inl (Except.ok.inj h).symm
  · rename_i v _
    split at h
    · rename_i b hb
      exact .inr ⟨v, Except.ok.inj h ▸ hb⟩
    · cases h

theorem unsigned?_le {limit n : Nat} {cs : List Char} (h : Text.unsigned? limit cs = some n) :
    n ≤ limit := by
  unfold Text.unsigned? at h
  split at h
  · split at h
    · exact Option.some.inj h ▸ ‹_›
    · cases h
  · cases h

theorem positive?_bounds {limit n : Nat} {s : String} (h : positive? limit s = some n) :
    0 < n ∧ n ≤ limit := by
  unfold positive? at h
  split at h
  · rename_i k hk
    obtain rfl := Option.some.inj h
    exact ⟨Nat.succ_pos k, unsigned?_le hk⟩
  · cases h

theorem positiveOr_bounds {f : Ini} {group key reason : String} {limit d n : Nat}
    (hd : 0 < d ∧ d ≤ limit) (h : valueOr f group key (positive? limit) reason d = .ok n) :
    0 < n ∧ n ≤ limit := by
  obtain rfl | ⟨v, hv⟩ := valueOr_ok h
  · exact hd
  · exact positive?_bounds hv

theorem named_default_log (home : Option Path) : Named home (default home).log := by
  cases home with
  | none => exact ⟨"./.cartostyle/cartostyle.log", by decide, rfl⟩
  | some home =>
    refine ⟨"~/" ++ (".cartostyle" ++ "/" ++ logName), by decide, ?_⟩
    rw [expand_tilde]
    exact Path.join_join (q := ⟨".cartostyle"⟩) (r := ⟨logName⟩) (c := 'e') (by decide) (by decide)
      (by decide) (by decide)

theorem ofIni_loaded {home : Option Path} {f : Ini} {c : Settings} (h : ofIni home f = .ok c) :
    Loaded home c := by
  simp only [ofIni, Steps.bind_eq_ok, Steps.pure_eq_ok] at h
  obtain ⟨order, -, reentrant, -, width, hwidth, height, hheight, timeout, htimeout, rfl⟩ := h
  exact {
    library := fun p hp => named_of_mem hp
    resources := pathOr_named ⟨"./resources", by decide, (expand_of_ne (by simp) home).symm⟩ _
    srs := textOr_ne (by decide) _
    background := textOr_ne (by decide) _
    maxWidth := positiveOr_bounds (by decide) hwidth
    maxHeight := positiveOr_bounds (by decide) hheight
    timeout := positiveOr_bounds (by decide) htimeout
    log := pathOr_named (named_default_log home) _ }

theorem textOr_firm {d : String} (hd : Text.Firm d.toList) (given : Option String) :
    Text.Firm (textOr d given).toList := by
  unfold textOr
  cases h : given.bind Text.nonblank? with
  | none => exact hd
  | some t =>
    obtain ⟨s, -, hs⟩ := Option.bind_eq_some_iff.1 h
    exact Text.firm_of_nonblank? hs

theorem defaults_firm : Text.Firm defaultSrs.toList ∧ Text.Firm defaultBackground.toList :=
  ⟨Text.firm_of_trim (by decide +kernel) (by decide +kernel),
    Text.firm_of_trim (by decide) (by decide)⟩

/-- What the settings say of a map has no blanks around it, whatever the file holds. -/
theorem ofIni_firm {home : Option Path} {f : Ini} {c : Settings} (h : ofIni home f = .ok c) :
    Text.Firm c.render.srs.toList ∧ Text.Firm c.render.background.toList := by
  simp only [ofIni, Steps.bind_eq_ok, Steps.pure_eq_ok] at h
  obtain ⟨order, -, reentrant, -, width, -, height, -, timeout, -, rfl⟩ := h
  exact ⟨textOr_firm defaults_firm.1 _, textOr_firm defaults_firm.2 _⟩

end StyledMap.Settings
