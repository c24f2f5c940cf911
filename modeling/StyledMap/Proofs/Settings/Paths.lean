import StyledMap.Proofs.Files.Below
import StyledMap.Settings.Reader
import StyledMap.Settings.Writer

/-! Paths of a settings file: what is written below the home directory is read as the same path. -/
namespace StyledMap.Settings

/-- The path of some text that is not empty. -/
def Named (home : Option Path) (p : Path) : Prop := ∃ s, s ≠ "" ∧ p = expand home s

theorem expand_tilde (home : Path) (rest : String) :
    expand (some home) ("~/" ++ rest) = home.join ⟨rest⟩ := by
  have hchars : ("~/" ++ rest).toList = '~' :: '/' :: rest.toList := by simp
  unfold expand
  simp only [hchars, String.ofList_toList]

/-- A path from a settings file stands below the home directory, or is spelled as in the file. -/
theorem expand_cases (home : Path) (s : String) :
    (∃ rest, expand (some home) s = home.join ⟨rest⟩) ∨
      ((∀ rest, s.toList ≠ '~' :: '/' :: rest) ∧ expand (some home) s = ⟨s⟩) := by
  unfold expand
  split
  · rename_i hhome _
    obtain rfl := Option.some.inj hhome
    exact .inl ⟨_, rfl⟩
  · rename_i h
    exact .inr ⟨fun rest hs => h home rest rfl hs, rfl⟩

theorem expand_of_ne {s : String} (h : ∀ rest, s.toList ≠ '~' :: '/' :: rest) (home : Option Path) :
    expand home s = ⟨s⟩ := by
  unfold expand
  split
  · rename_i rest hs
    exact absurd hs (h rest)
  · rfl

/-- A path that is written as it is spelled is read as it is spelled. -/
theorem Named.spelled {home : Option Path} {p : Path} (h : Named home p)
    (hnone : home.bind (·.below? p) = none) : p.text ≠ "" ∧ expand home p.text = p := by
  obtain ⟨s, hs, rfl⟩ := h
  cases home with
  | none => exact ⟨hs, rfl⟩
  | some home =>
    rw [Option.bind_some] at hnone
    obtain ⟨rest, hjoin⟩ | ⟨htilde, hself⟩ := expand_cases home s
    · rw [hjoin] at hnone ⊢
      have hfront := Path.front?_of_not_below hnone
      exact ⟨fun he => hfront (Path.front?_of_empty he),
        expand_of_ne (fun _ he => hfront (Path.front?_of_name he (by decide) (by decide))) _⟩
    · rw [hself]
      exact ⟨hs, hself⟩

/-- Writing a path and reading it again leads to the same place. -/
theorem expand_shorten {home : Option Path} {p : Path} (h : Named home p) :
    (expand home (shorten home p)).parts = p.parts := by
  unfold shorten
  split
  · rename_i rest hrest
    obtain ⟨home, rfl, hbelow⟩ := Option.bind_eq_some_iff.1 hrest
    rw [expand_tilde, Path.join_below? hbelow]
  · rename_i hnone
    rw [(h.spelled hnone).2]

theorem Named.shorten_ne {home : Option Path} {p : Path} (h : Named home p) : shorten home p ≠ "" := by
  unfold shorten
  split
  · rename_i rest _
    exact fun he => by simpa using congrArg String.toList he
  · rename_i hnone
    exact (h.spelled hnone).1

end StyledMap.Settings
