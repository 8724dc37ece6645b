import Patchwork.Proofs.Hunk.Placement
import Patchwork.Proofs.Text.Lines

/-!
# Blocks that are replaced

Wherever the search places the hunks, each block stands behind the one in front of it and holds the
old lines of its hunk. What the hunks make of a list of lines is described by how the list falls
apart (`Replaces`), and the result consists of lines again if no hunk leaves an unterminated line
inside (`Replaces.areLines`).
-/
namespace Patchwork.Hunk

theorem mem_candidates {expected floor last position : Nat} (hfloor : floor ≤ expected)
    (h : position ∈ candidates expected floor last) :
    floor ≤ position ∧ position ≤ max expected last := by
  obtain ⟨distance, -, h⟩ := List.mem_flatMap.1 h
  rcases List.mem_append.1 h with h | h
  · split at h
    · rw [List.mem_singleton] at h
      omega
    · simp at h
  · split at h
    · rw [List.mem_singleton] at h
      omega
    · simp at h

theorem prefix_of_locate {lines block : List String} {expected floor position : Nat}
    (hfloor : floor ≤ expected) (h : locate lines block expected floor = some position) :
    floor ≤ position ∧ block <+: lines.drop position := by
  unfold locate at h
  split at h
  · cases h
  · rename_i hroom
    split at h
    · rename_i hblock
      split at h
      · cases h
        exact ⟨hfloor, hblock ▸ List.nil_prefix⟩
      · cases h
    · dsimp only at h
      have hmem := List.mem_of_find?_eq_some h
      have hoccurs := List.find?_some h
      refine ⟨?_, occursAt_iff.1 hoccurs⟩
      exact (mem_candidates (Nat.le_min.2 ⟨hfloor, by omega⟩) hmem).1

/-- Hunks turn lines into others when both lists fall into kept lines and the blocks of the hunks,
in order. -/
inductive Replaces : List String → List Hunk → List String → Prop
  | kept (lines : List String) : Replaces lines [] lines
  | hunk (kept : List String) (h : Hunk) {restOld restNew : List String} {hs : List Hunk}
    (rest : Replaces restOld hs restNew) :
    Replaces (kept ++ (h.oldLines ++ restOld)) (h :: hs) (kept ++ (h.newLines ++ restNew))

/-- Placed hunks are replaced where they are placed. -/
theorem replaces_of_place {lines : List String} {cursor : Nat} {shift : Int} {index : Nat}
    {hs : List Hunk} {positions : List Nat}
    (h : place lines cursor shift index hs = .ok positions) :
    Replaces (lines.drop cursor) hs (splice lines cursor (positions.zip hs)) := by
  induction hs generalizing cursor shift index positions with
  | nil =>
    rw [List.zip_nil_right]
    exact .kept _
  | cons k hs ih =>
    unfold place at h
    dsimp only at h
    split at h
    · cases h
    · rename_i position hposition
      obtain ⟨hcursor, hblock⟩ := prefix_of_locate (Nat.le_max_right _ _) hposition
      split at h
      · cases h
      · rename_i positions hrest
        cases h
        have hkept : lines.drop cursor =
            (lines.drop cursor).take (position - cursor) ++ lines.drop position := by
          conv_lhs => rw [← List.take_append_drop (position - cursor) (lines.drop cursor)]
          rw [List.drop_drop, Nat.add_sub_cancel' hcursor]
        have hold : lines.drop position =
            k.oldLines ++ lines.drop (position + k.oldLines.length) := by
          conv_lhs => rw [← List.take_append_drop k.oldLines.length (lines.drop position)]
          rw [List.drop_drop, ← List.prefix_iff_eq_take.1 hblock]
        have hreplaces := Replaces.hunk ((lines.drop cursor).take (position - cursor)) k (ih hrest)
        rw [← hold, ← hkept] at hreplaces
        rw [List.zip_cons_cons, splice, List.append_assoc]
        exact hreplaces

theorem replaces_of_applyLines {lines : List String} {hs : List Hunk} {spliced : List String}
    (h : applyLines lines hs = .ok spliced) : Replaces lines hs spliced := by
  unfold applyLines at h
  split at h
  · cases h
  · rename_i positions hplace
    cases h
    exact replaces_of_place hplace

theorem applyAll_eq_ok_iff {text out : String} {hs : List Hunk} : applyAll text hs = .ok out ↔
    ∃ spliced, applyLines (Text.lines text) hs = .ok spliced ∧ Text.join spliced = out := by
  unfold applyAll
  cases applyLines (Text.lines text) hs <;> simp

/-! ## Lines stay lines -/

/-- A hunk that leaves an unterminated line at most at its end, and only if it found one there. -/
structure KeepsEnd (h : Hunk) : Prop where
  newLines : Text.AreLines h.newLines
  oldLines : h.oldLines ≠ []
  closed : (∀ l ∈ h.oldLines, Text.isTerminated l = true) →
    ∀ l ∈ h.newLines, Text.isTerminated l = true

instance (h : Hunk) : Decidable h.KeepsEnd :=
  decidable_of_iff (Text.AreLines h.newLines ∧ h.oldLines ≠ [] ∧
      ((∀ l ∈ h.oldLines, Text.isTerminated l = true) →
        ∀ l ∈ h.newLines, Text.isTerminated l = true))
    ⟨fun ⟨hn, ho, hc⟩ => ⟨hn, ho, hc⟩, fun ⟨hn, ho, hc⟩ => ⟨hn, ho, hc⟩⟩

namespace Replaces

variable {old new : List String} {hs : List Hunk}

theorem isLine (h : Replaces old hs new) (hold : ∀ l ∈ old, Text.IsLine l)
    (hhunks : ∀ k ∈ hs, ∀ l ∈ k.newLines, Text.IsLine l) : ∀ l ∈ new, Text.IsLine l := by
  induction h with
  | kept => exact hold
  | hunk kept k rest ih => grind

theorem eq_nil (h : Replaces old hs new) (hold : old = []) (hhunks : ∀ k ∈ hs, k.oldLines ≠ []) :
    new = [] := by
  cases h with
  | kept => exact hold
  | hunk kept k rest =>
    have hne := hhunks _ List.mem_cons_self
    simp_all

/-- If no hunk leaves an unterminated line where it found none, lines become lines. -/
theorem areLines (h : Replaces old hs new) (hold : Text.AreLines old)
    (hhunks : ∀ k ∈ hs, k.KeepsEnd) : Text.AreLines new := by
  induction h with
  | kept => exact hold
  | hunk kept k rest ih =>
    obtain ⟨hk, hhunks⟩ := List.forall_mem_cons.1 hhunks
    obtain ⟨hkept, hblock, hkeptClosed⟩ := Text.areLines_append_iff.1 hold
    obtain ⟨-, hrest, hblockClosed⟩ := Text.areLines_append_iff.1 hblock
    have hkeptClosed := hkeptClosed (by simp [hk.oldLines])
    refine Text.areLines_append_iff.2 ⟨hkept, Text.areLines_append_iff.2
      ⟨hk.newLines, ih hrest hhunks, fun hne => hk.closed (hblockClosed ?_)⟩, fun _ => hkeptClosed⟩
    exact fun hnil => hne (rest.eq_nil hnil fun j hj => (hhunks j hj).oldLines)

end Replaces

end Patchwork.Hunk
