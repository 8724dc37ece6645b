import Patchwork.Patch.Parser
import Patchwork.Proofs.Hunk.Read
import Patchwork.Proofs.Outcome

/-!
# What is read as a patch

The parts of a text that is read as a patch, each with what it is read as (`exists_of_ofLines`).
-/
namespace Patchwork.Patch

theorem suffix_of_findOldHeader {number : Nat} {ls : List String}
    {found : Nat × String × List String} (h : findOldHeader number ls = some found) :
    found.2.2 <:+ ls := by
  induction ls generalizing number with
  | nil => cases h
  | cons l ls ih =>
    unfold findOldHeader at h
    split at h
    · cases h
      exact List.suffix_cons _ _
    · exact (ih h).trans (List.suffix_cons _ _)

/-- The lines that a patch is read from: any at first, then one header line for each side, whose
names say what kind of patch it is, and the lines of its hunks. -/
theorem exists_of_ofLines {ls : List String} {p : Patch} (h : ofLines ls = .ok p) :
    ∃ number oldValue l rest newValue old new,
      findOldHeader 1 ls = some (number, oldValue, l :: rest) ∧
      headerValue? newHeaderMark l = some newValue ∧
      readName number .old oldValue = .ok old ∧ readName (number + 1) .new newValue = .ok new ∧
      kindOfNames (number + 1) old new = .ok (p.path, p.kind) ∧
      Hunk.readHunks (number + 2) rest = .ok p.hunks ∧ shapeFault? p.kind p.hunks = none := by
  unfold ofLines at h
  cases hfound : findOldHeader 1 ls with
  | none =>
    rw [hfound] at h
    cases h
  | some found =>
    obtain ⟨number, oldValue, rest⟩ := found
    rw [hfound] at h
    obtain ⟨_, ⟨⟩, h⟩ := Except.bind_eq_ok_iff.1 h
    obtain ⟨old, hold, h⟩ := Except.bind_eq_ok_iff.1 h
    cases rest with
    | nil => cases h
    | cons l rest =>
      dsimp only at h
      cases hvalue : headerValue? newHeaderMark l with
      | none =>
        rw [hvalue] at h
        cases h
      | some newValue =>
        rw [hvalue] at h
        obtain ⟨_, ⟨⟩, h⟩ := Except.bind_eq_ok_iff.1 h
        obtain ⟨new, hnew, h⟩ := Except.bind_eq_ok_iff.1 h
        obtain ⟨⟨path, kind⟩, hkind, h⟩ := Except.bind_eq_ok_iff.1 h
        obtain ⟨hunks, hread, h⟩ := Except.bind_eq_ok_iff.1 h
        dsimp only at h
        split at h
        · cases h
        · cases h
          exact ⟨number, oldValue, l, rest, newValue, old, new, rfl, hvalue, hold, hnew, hkind,
            hread, ‹_›⟩

theorem shapeFault?_of_parse {text : String} {p : Patch} (h : parse text = .ok p) :
    shapeFault? p.kind p.hunks = none := by
  obtain ⟨_, _, _, _, _, _, _, -, -, -, -, -, -, hshape⟩ := exists_of_ofLines h
  exact hshape

theorem isLegible_of_parse {text : String} {p : Patch} (h : parse text = .ok p) :
    ∀ k ∈ p.hunks, k.IsLegible := by
  obtain ⟨_, _, l, rest, _, _, _, hfound, -, -, -, -, hread, -⟩ := exists_of_ofLines h
  have hrest : rest <:+ Text.lines text :=
    (List.suffix_cons l rest).trans (suffix_of_findOldHeader hfound)
  exact Hunk.isLegible_of_readHunks (fun k hk => Text.isLine_of_mem_lines (hrest.subset hk)) hread

theorem announced_of_parse {text : String} {p : Patch} (h : parse text = .ok p) :
    ∀ k ∈ p.hunks, k.Announced := fun k hk => (isLegible_of_parse h k hk).toAnnounced

end Patchwork.Patch
