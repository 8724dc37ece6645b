import Patchwork.Proofs.Hunk.Placement
import Patchwork.Proofs.Patch.NormalForm

/-!
# What every patch that was read is like

Reading checks a patch while it counts lines down, takes markers and skips blank lines. Whatever
text it accepts, the headers of the hunks count their lines, each line is one, the hunks stand in
order, and a file is created by insertions alone and deleted by deletions alone
(`isConsistent_of_parse`).
-/
namespace Patchwork

namespace Hunk

/-- A hunk whose header counts the lines of its body, each of which has a newline at its end or
nowhere. -/
structure IsConsistent (h : Hunk) : Prop where
  old : h.lines.countP (·.kind = .context) + h.lines.countP (·.kind = .deletion) = h.oldLength
  new : h.lines.countP (·.kind = .context) + h.lines.countP (·.kind = .insertion) = h.newLength
  isLine : ∀ l ∈ h.lines, Text.IsLine l.text

theorem countP_isOld (ls : List Line) : ls.countP (·.kind.isOld) =
    ls.countP (·.kind = .context) + ls.countP (·.kind = .deletion) := by
  induction ls with
  | nil => rfl
  | cons l ls ih =>
    simp only [List.countP_cons, ih]
    cases l.kind <;> simp [LineKind.isOld] <;> omega

theorem countP_isNew (ls : List Line) : ls.countP (·.kind.isNew) =
    ls.countP (·.kind = .context) + ls.countP (·.kind = .insertion) := by
  induction ls with
  | nil => rfl
  | cons l ls ih =>
    simp only [List.countP_cons, ih]
    cases l.kind <;> simp [LineKind.isNew] <;> omega

namespace Announced

variable {h : Hunk} (hh : h.Announced)
include hh

theorem isConsistent : h.IsConsistent where
  old := by rw [← countP_isOld, ← length_oldLines, hh.oldLength]
  new := by rw [← countP_isNew, ← length_newLines, hh.newLength]
  isLine := hh.isLine

theorem kind_eq_insertion (hold : h.oldLength = 0) : ∀ l ∈ h.lines, l.kind = .insertion := by
  have hnone := hh.oldLength
  rw [hold, length_oldLines, List.countP_eq_zero] at hnone
  intro l hl
  simpa [LineKind.isOld] using hnone l hl

theorem kind_eq_deletion (hnew : h.newLength = 0) : ∀ l ∈ h.lines, l.kind = .deletion := by
  have hnone := hh.newLength
  rw [hnew, length_newLines, List.countP_eq_zero] at hnone
  intro l hl
  simpa [LineKind.isNew] using hnone l hl

end Announced

end Hunk

namespace Patch

/-- A patch of a file whose hunks count their lines, stand in order, and are as many and such as its
kind allows. -/
structure IsConsistent (p : Patch) : Prop where
  path : p.path.isRoot = false
  hunks : ∀ h ∈ p.hunks, h.IsConsistent
  modify : p.kind = .modify → p.hunks ≠ []
  create : p.kind = .create → p.hunks.length ≤ 1 ∧ ∀ h ∈ p.hunks, ∀ l ∈ h.lines, l.kind = .insertion
  delete : p.kind = .delete → p.hunks.length ≤ 1 ∧ ∀ h ∈ p.hunks, ∀ l ∈ h.lines, l.kind = .deletion
  ordered : p.hunks.Pairwise fun h k => oldEnd h ≤ k.oldIndex

theorem pairwise_of_firstOutOfOrder? {floor : Nat} {hs : List Hunk}
    (hstarts : ∀ h ∈ hs, h.oldStart ≤ maxNumber) (h : firstOutOfOrder? floor hs = none) :
    (∀ k ∈ hs, floor ≤ k.oldIndex) ∧ hs.Pairwise fun h k => oldEnd h ≤ k.oldIndex := by
  induction hs generalizing floor with
  | nil => exact ⟨nofun, .nil⟩
  | cons k hs ih =>
    obtain ⟨hstart, hstarts⟩ := List.forall_mem_cons.1 hstarts
    unfold firstOutOfOrder? at h
    split_ifs at h with hfloor
    obtain ⟨hbehind, hpairwise⟩ := ih hstarts h
    have hend : k.oldIndex ≤ oldEnd k :=
      Nat.le_min.2 ⟨Nat.le_add_right _ _, Nat.le_trans k.oldIndex_le hstart⟩
    have hfloor : floor ≤ k.oldIndex := Nat.not_lt.1 hfloor
    refine ⟨List.forall_mem_cons.2 ⟨hfloor, fun j hj => ?_⟩, .cons hbehind hpairwise⟩
    exact hfloor.trans (hend.trans (hbehind j hj))

/-- Every patch that is read is consistent, whatever its text is. -/
theorem isConsistent_of_parse {text : String} {p : Patch} (h : parse text = .ok p) :
    p.IsConsistent := by
  have hlegible := isLegible_of_parse h
  have hannounced := announced_of_parse h
  obtain ⟨_, _, _, _, _, _, _, -, -, -, -, -, -, hshape⟩ := exists_of_ofLines h
  obtain ⟨hmodify, hcreate, hdelete, horder⟩ := shapeFault?_eq_none_iff.1 hshape
  refine ⟨isRoot_of_parse h, fun k hk => (hannounced k hk).isConsistent, hmodify, fun hkind => ?_,
    fun hkind => ?_, ?_⟩
  · have honly := hcreate hkind
    simp only [hasOnlyInsertions, Bool.and_eq_true, decide_eq_true_eq, List.all_eq_true] at honly
    exact ⟨honly.1, fun k hk => (hannounced k hk).kind_eq_insertion (honly.2 k hk).2⟩
  · have honly := hdelete hkind
    simp only [hasOnlyDeletions, Bool.and_eq_true, decide_eq_true_eq, List.all_eq_true] at honly
    exact ⟨honly.1, fun k hk => (hannounced k hk).kind_eq_deletion (honly.2 k hk).2⟩
  · exact (pairwise_of_firstOutOfOrder? (fun k hk => (hlegible k hk).oldStart_le) horder).2

/-- A marker inside a hunk, an empty line that lost its space, adjacent hunks, and no newline at the
end. -/
theorem isConsistent_of_parse_marked :
    let p : Patch := ⟨⟨"f"⟩, .modify, [
      ⟨1, 2, 1, 3, none, [⟨.context, "a\n"⟩, ⟨.insertion, "b"⟩, ⟨.context, "\n"⟩]⟩,
      ⟨3, 1, 3, 0, none, [⟨.deletion, "c\n"⟩]⟩]⟩
    parse
      "--- a/f\n+++ b/f\n@@ -1,2 +1,3 @@\n a\n+b\n\\ No newline at end of file\n\n@@ -3 +3,0 @@\n-c" =
        .ok p ∧ p.IsConsistent := by
  intro p
  have hparse : parse
    "--- a/f\n+++ b/f\n@@ -1,2 +1,3 @@\n a\n+b\n\\ No newline at end of file\n\n@@ -3 +3,0 @@\n-c" =
    .ok p := by decide +kernel
  exact ⟨hparse, isConsistent_of_parse hparse⟩

end Patch

end Patchwork
