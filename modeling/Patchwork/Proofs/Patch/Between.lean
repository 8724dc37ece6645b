import Patchwork.Patch.Between
import Patchwork.Proofs.Diff.Grouping
import Patchwork.Proofs.Patch.RoundTrip
import Patchwork.Proofs.Stack.Replay

/-!
# The patch between two versions does what it should

The patch between two versions of a file is valid (`isValid_of_between`), so it is read back from
its text, and it turns the old version into the new one, where `none` is the absence of the file
(`onFile_of_between`). Its hunks may be printed and read again on the way (`betweenReread_eq`).
-/
namespace Patchwork

namespace Hunk

/-- The numbers in a header are bounded by the lines on either side. -/
theorem StandsAt.isValid {h : Hunk} {i j : Nat} (hh : h.StandsAt i j)
    (hi : i + h.oldLines.length ≤ maxNumber) (hj : j + h.newLines.length ≤ maxNumber)
    (hlines : ∀ l ∈ h.lines, Text.IsLine l.text) : h.IsValid := by
  obtain ⟨hold, hnew, holdLength, hnewLength, hheading⟩ := hh
  rw [Hunk.oldIndex] at hold
  rw [Hunk.newIndex] at hnew
  refine ⟨holdLength, hnewLength, ?_, by omega, ?_, by omega, by simp [hheading], hlines⟩
  · by_cases h0 : h.oldLength = 0
    · rw [if_pos h0] at hold
      omega
    · rw [if_neg h0] at hold
      omega
  · by_cases h0 : h.newLength = 0
    · rw [if_pos h0] at hnew
      omega
    · rw [if_neg h0] at hnew
      omega

theorem StandsAt.old_eq_zero {h : Hunk} {i j : Nat} (hh : h.StandsAt i j)
    (hi : i + h.oldLines.length = 0) : h.oldStart = 0 ∧ h.oldLength = 0 := by
  have hlength : h.oldLength = 0 := by
    rw [hh.oldLength]
    omega
  have hindex := hh.oldIndex
  rw [Hunk.oldIndex, if_pos hlength] at hindex
  exact ⟨by omega, hlength⟩

theorem StandsAt.new_eq_zero {h : Hunk} {i j : Nat} (hh : h.StandsAt i j)
    (hj : j + h.newLines.length = 0) : h.newStart = 0 ∧ h.newLength = 0 := by
  have hlength : h.newLength = 0 := by
    rw [hh.newLength]
    omega
  have hindex := hh.newIndex
  rw [Hunk.newIndex, if_pos hlength] at hindex
  exact ⟨by omega, hlength⟩

theorem text_mem_of_mem_lines {h : Hunk} {l : Line} (hl : l ∈ h.lines) :
    l.text ∈ h.oldLines ∨ l.text ∈ h.newLines := by
  by_cases hold : l.kind.isOld = true
  · exact .inl (List.mem_map_of_mem (List.mem_filter.2 ⟨hl, hold⟩))
  · have hnew : l.kind.isNew = true := by
      revert hold
      cases l.kind <;> decide
    exact .inr (List.mem_map_of_mem (List.mem_filter.2 ⟨hl, hnew⟩))

namespace Leads

variable {old new : Nat} {oldLines newLines : List String} {hs : List Hunk}

/-- Every hunk stands within both lists and takes its lines from them. -/
theorem exists_standsAt (h : Leads old new oldLines hs newLines) : ∀ k ∈ hs, ∃ i j, k.StandsAt i j ∧
    i + k.oldLines.length ≤ old + oldLines.length ∧ j + k.newLines.length ≤ new + newLines.length ∧
    k.oldLines ⊆ oldLines ∧ k.newLines ⊆ newLines := by
  induction h with
  | kept => simp
  | @hunk old new kept restOld restNew h hs stands rest ih =>
    intro k hk
    simp only [List.length_append]
    rcases List.mem_cons.1 hk with rfl | hk
    · exact ⟨_, _, stands, by omega, by omega, by simp, by simp⟩
    · obtain ⟨i, j, hij, hi, hj, hold, hnew⟩ := ih k hk
      refine ⟨i, j, hij, by omega, by omega, ?_, ?_⟩
      · exact fun l hl => by simp [hold hl]
      · exact fun l hl => by simp [hnew hl]

theorem eq_of_nil (h : Leads old new oldLines [] newLines) : oldLines = newLines := by
  cases h
  rfl

end Leads

end Hunk

namespace Diff

theorem isValid_of_mem_hunks (context : Nat) {old new : String}
    (hold : (Text.lines old).length ≤ maxNumber) (hnew : (Text.lines new).length ≤ maxNumber) :
    ∀ k ∈ hunks context old new, k.IsValid := by
  intro k hk
  obtain ⟨i, j, hij, hi, hj, holdLines, hnewLines⟩ :=
    (hunks_leads context old new).exists_standsAt k hk
  refine hij.isValid (by omega) (by omega) fun l hl => ?_
  rcases Hunk.text_mem_of_mem_lines hl with h | h
  · exact Text.isLine_of_mem_lines (holdLines h)
  · exact Text.isLine_of_mem_lines (hnewLines h)

/-- The hunks between texts are read back from their own text, so nothing is lost when they are
handed on as they are. -/
theorem readHunks_hunks (context number : Nat) {old new : String}
    (hold : (Text.lines old).length ≤ maxNumber) (hnew : (Text.lines new).length ≤ maxNumber) :
    Hunk.readHunks number (Text.lines (Text.join ((hunks context old new).map Hunk.render))) =
      .ok (hunks context old new) := by
  have hvalid := isValid_of_mem_hunks context hold hnew
  generalize hunks context old new = hs at hvalid ⊢
  rw [← Hunk.join_flatMap_textLines, Text.lines_join
    (Hunk.isLine_of_mem_flatMap_textLines fun h hh => (hvalid h hh).isLegible)
    Hunk.isTerminated_of_mem_flatMap_textLines]
  exact Hunk.readHunks_textLines_of_isValid number hvalid

theorem hunks_ne_nil {context : Nat} {old new : String} (h : old ≠ new) :
    hunks context old new ≠ [] := by
  intro hnil
  have hleads := hunks_leads context old new
  rw [hnil] at hleads
  exact h (by rw [← Text.join_lines old, hleads.eq_of_nil, Text.join_lines])

theorem hunks_of_old_eq_empty (context : Nat) {old : String} (h : old = "") (new : String) :
    (hunks context old new).length ≤ 1 ∧
      ∀ k ∈ hunks context old new, k.oldStart = 0 ∧ k.oldLength = 0 := by
  subst old
  refine ⟨length_hunks_le_one context (.inl Text.lines_empty), fun k hk => ?_⟩
  obtain ⟨i, j, hij, hi, -⟩ := (hunks_leads context "" new).exists_standsAt k hk
  rw [Text.lines_empty, List.length_nil] at hi
  exact hij.old_eq_zero (by omega)

theorem hunks_of_new_eq_empty (context : Nat) (old : String) {new : String} (h : new = "") :
    (hunks context old new).length ≤ 1 ∧
      ∀ k ∈ hunks context old new, k.newStart = 0 ∧ k.newLength = 0 := by
  subst new
  refine ⟨length_hunks_le_one context (.inr Text.lines_empty), fun k hk => ?_⟩
  obtain ⟨i, j, hij, -, hj, -⟩ := (hunks_leads context old "").exists_standsAt k hk
  rw [Text.lines_empty, List.length_nil] at hj
  exact hij.new_eq_zero (by omega)

end Diff

namespace Patch

variable {path : TreePath} {old new : Option String} {context : Nat} {p : Patch}

theorem between_eq_some (h : between path old new context = some p) :
    old ≠ new ∧ p.path = path ∧ p.kind.Turns old new ∧
      p.hunks = Diff.hunks context (old.getD "") (new.getD "") := by
  unfold between at h
  split at h
  · cases h
  · rename_i hne
    rw [← Option.some.inj h]
    refine ⟨hne, rfl, ?_, rfl⟩
    cases old with
    | none =>
      cases new with
      | none => exact absurd rfl hne
      | some t => exact ⟨rfl, rfl⟩
    | some s =>
      cases new with
      | none => exact ⟨rfl, rfl⟩
      | some t => exact ⟨rfl, rfl⟩

/-- The patch between two versions, whose hunks are printed and read again. -/
def betweenReread (path : TreePath) (old new : Option String) (context : Nat) :
    Except ParseError (Option Patch) :=
  match between path old new context with
  | none => .ok none
  | some p => do
    let hunks ← Hunk.readHunks 1 (Text.lines (Text.join (p.hunks.map Hunk.render)))
    return some { p with hunks := hunks }

/-- It is the same patch, and no error is possible. -/
theorem betweenReread_eq (hold : (Text.lines (old.getD "")).length ≤ maxNumber)
    (hnew : (Text.lines (new.getD "")).length ≤ maxNumber) :
    betweenReread path old new context = .ok (between path old new context) := by
  unfold betweenReread
  cases hbetween : between path old new context with
  | none => rfl
  | some p =>
    obtain ⟨-, -, -, hhunks⟩ := between_eq_some hbetween
    dsimp only
    rw [hhunks, Diff.readHunks_hunks context 1 hold hnew, ← hhunks]
    rfl

theorem isValid_of_between (hpath : path.IsFilePath)
    (hold : (Text.lines (old.getD "")).length ≤ maxNumber)
    (hnew : (Text.lines (new.getD "")).length ≤ maxNumber)
    (h : between path old new context = some p) : p.IsValid := by
  obtain ⟨hne, rfl, hturns, hhunks⟩ := between_eq_some h
  have hleads := Diff.hunks_leads context (old.getD "") (new.getD "")
  have hvalid := Diff.isValid_of_mem_hunks context hold hnew
  have hmodified : p.kind = .modify → p.hunks ≠ [] := by
    intro hk
    rw [hk] at hturns
    obtain ⟨s, rfl⟩ := Option.isSome_iff_exists.1 hturns.1
    obtain ⟨t, rfl⟩ := Option.isSome_iff_exists.1 hturns.2
    rw [hhunks]
    exact Diff.hunks_ne_nil fun hst => hne (congrArg some hst)
  have hcreated : p.kind = .create →
      p.hunks.length ≤ 1 ∧ ∀ h ∈ p.hunks, h.oldStart = 0 ∧ h.oldLength = 0 := by
    intro hk
    rw [hk] at hturns
    rw [hhunks, hturns.1]
    exact Diff.hunks_of_old_eq_empty context rfl _
  have hdeleted : p.kind = .delete →
      p.hunks.length ≤ 1 ∧ ∀ h ∈ p.hunks, h.newStart = 0 ∧ h.newLength = 0 := by
    intro hk
    rw [hk] at hturns
    rw [hhunks, hturns.2]
    exact Diff.hunks_of_new_eq_empty context _ rfl
  rw [← hhunks] at hleads hvalid
  have hordered : p.hunks.IsChain fun h k => h.oldIndex + h.oldLength ≤ k.oldIndex := by
    refine hleads.isChain.imp_of_mem_imp fun h k hh _ hle => ?_
    rw [(hvalid h hh).oldLength]
    exact hle
  exact ⟨hpath, hmodified, hcreated, hdeleted, hvalid, hordered⟩

theorem applyAll_of_between (hlength : (Text.lines (old.getD "")).length ≤ Hunk.maxShift)
    (h : between path old new context = some p) :
    Hunk.applyAll (old.getD "") p.hunks = .ok (new.getD "") := by
  obtain ⟨-, -, -, hhunks⟩ := between_eq_some h
  rw [hhunks]
  exact (Diff.hunks_leads context _ _).applyAll hlength

theorem onFile_of_between (hlength : (Text.lines (old.getD "")).length ≤ Hunk.maxShift)
    (h : between path old new context = some p) :
    p.onFile (old.map Content.ofText) = .ok (new.map Content.ofText) := by
  obtain ⟨-, -, hturns, -⟩ := between_eq_some h
  exact onFile_eq_ok_iff.2 ⟨old, new, rfl, rfl, hturns,
    Except.mapError_eq_ok_iff.2 (applyAll_of_between hlength h)⟩

end Patch

end Patchwork
