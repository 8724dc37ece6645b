import Mathlib.Data.List.Chain
import Patchwork.Hunk.Placement

/-!
# Hunks in their declared places

Hunks whose old lines stand where the headers say, one behind the other, are placed exactly there:
the first candidate of every search is the declared position (`place_of_occursAt`). What they leave
behind is then described without positions, by a list of kept lines and blocks (`Leads.applyLines`).
-/
namespace Patchwork.Hunk

theorem oldIndex_le (h : Hunk) : h.oldIndex ≤ h.oldStart := by
  unfold oldIndex
  split <;> omega

theorem occursAt_iff {lines block : List String} {position : Nat} :
    occursAt lines block position = true ↔ block <+: lines.drop position :=
  List.isPrefixOf_iff_prefix

theorem locate_of_occursAt {lines block : List String} {expected floor : Nat}
    (hfloor : floor ≤ expected) (hle : expected + block.length ≤ lines.length)
    (hoccurs : occursAt lines block expected = true) :
    locate lines block expected floor = some expected := by
  rw [locate, if_neg (by omega)]
  by_cases hblock : block = []
  · subst block
    rw [if_pos rfl]
    exact if_pos hle
  · have hlast : expected ≤ lines.length - block.length := by omega
    rw [if_neg hblock]
    dsimp only
    rw [Nat.min_eq_left hlast, candidates, List.range_succ_eq_map, List.flatMap_cons]
    simp [hlast, hoccurs]

/-- Without any shift, hunks that stand in order where they are declared are placed there. -/
theorem place_of_occursAt {lines : List String} (hlines : lines.length ≤ maxShift) {cursor : Nat}
    (index : Nat) {hs : List Hunk}
    (hoccurs : ∀ h ∈ hs, h.oldIndex + h.oldLines.length ≤ lines.length ∧
      occursAt lines h.oldLines h.oldIndex = true)
    (hcursor : ∀ h ∈ hs.head?, cursor ≤ h.oldIndex)
    (horder : hs.IsChain fun h k => h.oldIndex + h.oldLines.length ≤ k.oldIndex) :
    place lines cursor 0 index hs = .ok (hs.map oldIndex) := by
  induction hs generalizing cursor index with
  | nil => rfl
  | cons h hs ih =>
    obtain ⟨hle, hocc⟩ := hoccurs h (by simp)
    obtain ⟨hnext, horder⟩ := List.isChain_cons.1 horder
    have hcursor : cursor ≤ h.oldIndex := hcursor h rfl
    have hshift : h.oldIndex ≤ maxShift := by omega
    have hnumber : h.oldIndex ≤ maxNumber := Nat.le_trans hshift (by decide)
    have hexpected : max (shifted h.oldIndex 0) cursor = h.oldIndex := by
      rw [shifted, Int.add_zero, Int.toNat_natCast, Nat.min_eq_left hnumber,
        Nat.max_eq_left hcursor]
    have hstill : (h.oldIndex : Int) - (min h.oldIndex maxShift : Nat) = 0 := by
      rw [Nat.min_eq_left hshift, Int.sub_self]
    have hrest := ih (index + 1) (fun k hk => hoccurs k (by simp [hk])) hnext horder
    rw [place]
    simp only [hexpected, locate_of_occursAt hcursor hle hocc, hstill, hrest, List.map_cons]

/-! ## Kept lines and blocks -/

def newIndex (h : Hunk) : Nat := if h.newLength = 0 then h.newStart else h.newStart - 1

/-- A hunk behind `old` old lines and `new` new ones whose header says so and counts its lines. -/
structure StandsAt (h : Hunk) (old new : Nat) : Prop where
  oldIndex : h.oldIndex = old
  newIndex : h.newIndex = new
  oldLength : h.oldLength = h.oldLines.length
  newLength : h.newLength = h.newLines.length
  heading : h.heading = none

/-- Hunks lead from lines to others when both lists fall into kept lines and the blocks of the
hunks, in order. In front of the lists stand `old` old lines and `new` new ones. -/
inductive Leads : Nat → Nat → List String → List Hunk → List String → Prop
  | kept (old new : Nat) (lines : List String) : Leads old new lines [] lines
  | hunk {old new : Nat} {kept restOld restNew : List String} {h : Hunk} {hs : List Hunk}
    (stands : h.StandsAt (old + kept.length) (new + kept.length))
    (rest : Leads (old + kept.length + h.oldLines.length) (new + kept.length + h.newLines.length)
      restOld hs restNew) :
    Leads old new (kept ++ (h.oldLines ++ restOld)) (h :: hs) (kept ++ (h.newLines ++ restNew))

namespace Leads

variable {old new : Nat} {oldLines newLines : List String} {hs : List Hunk}

theorem le_oldIndex (h : Leads old new oldLines hs newLines) :
    ∀ k ∈ hs.head?, old ≤ k.oldIndex := by
  cases h with
  | kept => simp
  | hunk stands rest =>
    rintro k ⟨⟩
    rw [stands.oldIndex]
    omega

theorem isChain (h : Leads old new oldLines hs newLines) :
    hs.IsChain fun k l => k.oldIndex + k.oldLines.length ≤ l.oldIndex := by
  induction h with
  | kept => exact .nil
  | hunk stands rest ih =>
    refine ih.cons fun l hl => ?_
    rw [stands.oldIndex]
    exact rest.le_oldIndex l hl

theorem occursAt (h : Leads old new oldLines hs newLines) {lines : List String}
    (hlines : lines.drop old = oldLines) (hle : old ≤ lines.length) :
    ∀ k ∈ hs, k.oldIndex + k.oldLines.length ≤ lines.length ∧
      Hunk.occursAt lines k.oldLines k.oldIndex = true := by
  induction h with
  | kept => simp
  | @hunk old new kept restOld restNew h hs stands rest ih =>
    have hlength : lines.length = old + kept.length + h.oldLines.length + restOld.length := by
      have := congrArg List.length hlines
      simp only [List.length_drop, List.length_append] at this
      omega
    have hdrop : lines.drop (old + kept.length) = h.oldLines ++ restOld := by
      rw [← List.drop_drop, hlines, List.drop_left]
    intro k hk
    rcases List.mem_cons.1 hk with rfl | hk
    · rw [stands.oldIndex, occursAt_iff, hdrop]
      exact ⟨by omega, List.prefix_append _ _⟩
    · refine ih ?_ (by omega) k hk
      rw [← List.drop_drop, hdrop, List.drop_left]

theorem splice (h : Leads old new oldLines hs newLines) {lines : List String}
    (hlines : lines.drop old = oldLines) :
    Hunk.splice lines old ((hs.map Hunk.oldIndex).zip hs) = newLines := by
  induction h with
  | kept => exact hlines
  | @hunk old new kept restOld restNew h hs stands rest ih =>
    have hdrop : lines.drop (old + kept.length) = h.oldLines ++ restOld := by
      rw [← List.drop_drop, hlines, List.drop_left]
    have hrest : lines.drop (old + kept.length + h.oldLines.length) = restOld := by
      rw [← List.drop_drop, hdrop, List.drop_left]
    rw [List.map_cons, List.zip_cons_cons, Hunk.splice, stands.oldIndex, hlines,
      Nat.add_sub_cancel_left, List.take_left, ih hrest, List.append_assoc]

/-- Hunks that lead from one list of lines to another turn the first into the second. -/
theorem applyLines (h : Leads 0 0 oldLines hs newLines) (hlength : oldLines.length ≤ maxShift) :
    Hunk.applyLines oldLines hs = .ok newLines := by
  have hplace := place_of_occursAt hlength 0 (h.occursAt List.drop_zero (Nat.zero_le _))
    h.le_oldIndex h.isChain
  rw [Hunk.applyLines, hplace]
  dsimp only
  rw [h.splice List.drop_zero]

theorem applyAll {oldText newText : String}
    (h : Leads 0 0 (Text.lines oldText) hs (Text.lines newText))
    (hlength : (Text.lines oldText).length ≤ maxShift) :
    Hunk.applyAll oldText hs = .ok newText := by
  rw [Hunk.applyAll, h.applyLines hlength]
  dsimp only
  rw [Text.join_lines]

end Leads

end Patchwork.Hunk
