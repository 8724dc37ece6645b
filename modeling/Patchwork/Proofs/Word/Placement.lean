import Patchwork.Proofs.Hunk.Nearest
import Patchwork.Proofs.Tree.Text
import Patchwork.Proofs.Word.Parser

/-!
# Placing hunks in words

The search for a block steps away from the expected position in both directions, and a window of the
lines is taken at every step. It stays in range because no window is taken that does not lie between
the end of the hunk in front and the end of the lines (`locate_eq`), whatever the header says. The
position that is found is what keeps the next hunk in range (`applyFrom_eq`).
-/
namespace Patchwork.Word

open Hunk (Conflict occursAt maxShift atDistance shifted)

/-! ## One search -/

def matchesAt (lines block : List String) (position : Nat) : Option Bool := do
  let stop ← add? position block.length
  let window ← slice? lines position stop
  return window = block

def tryAt (lines block : List String) : Option Nat → Option (Option Nat)
  | none => some none
  | some position => do
    if ← matchesAt lines block position then return some position else return none

/-- The position that lies `distance` behind the expected one. A sum that has no room is no
position, and nothing goes wrong with it. -/
def stepForth? (expected last distance : Nat) : Option Nat :=
  (add? expected distance).filter (· ≤ last)

/-- The position that lies `distance` in front of the expected one, if there is one. -/
def stepBack? (expected floor last distance : Nat) : Option Nat :=
  if 0 < distance then (sub? expected distance).filter fun position => floor ≤ position ∧
    position ≤ last else none

/-- Looks for a block at one distance from the expected position after the other. -/
def search (lines block : List String) (expected floor last : Nat) : List Nat → Option (Option Nat)
  | [] => some none
  | distance :: distances => do
    match ← tryAt lines block (stepForth? expected last distance) with
    | some position => return some position
    | none =>
      match ← tryAt lines block (stepBack? expected floor last distance) with
      | some position => return some position
      | none => search lines block expected floor last distances

def locate (lines block : List String) (expected floor : Nat) : Option (Option Nat) :=
  match sub? lines.length block.length with
  | none => some none
  | some last =>
    if last < floor then some none
    else if block = [] then some (if expected ≤ last then some expected else none)
    else
      let expected := min expected last
      search lines block expected floor last
        (List.range (max (expected - floor) (last - expected) + 1))

theorem matchesAt_eq {lines block : List String} {position : Nat}
    (hlines : lines.length ≤ maxNumber) (h : position + block.length ≤ lines.length) :
    matchesAt lines block position = some (occursAt lines block position) := by
  have hwindow : lines.extract position
      (position + block.length) = (lines.drop position).take block.length := by
    rw [List.extract_eq_take_drop, Nat.add_sub_cancel_left]
  have hoccurs : decide ((lines.drop position).take block.length = block) =
      occursAt lines block position := by
    rw [Bool.eq_iff_iff, decide_eq_true_iff, Hunk.occursAt_iff, List.prefix_iff_eq_take, eq_comm]
  rw [matchesAt, add?_of_le (Nat.le_trans h hlines), Option.bind_eq_bind, Option.bind_some,
    slice?_of_le (Nat.le_add_right _ _) h, hwindow, ← hoccurs]
  rfl

theorem tryAt_eq {lines : List String} (hlines : lines.length ≤ maxNumber) (block : List String)
    (tried : Option Nat) (h : ∀ position ∈ tried, position + block.length ≤ lines.length) :
    tryAt lines block tried = some (tried.toList.find? (occursAt lines block)) := by
  cases tried with
  | none => rfl
  | some position =>
    rw [tryAt, matchesAt_eq hlines (h position rfl)]
    cases hoccurs : occursAt lines block position <;> simp [hoccurs]

theorem le_of_mem_stepForth? {expected last distance position : Nat}
    (h : position ∈ stepForth? expected last distance) :
    position ≤ last := by
  simpa using (Option.mem_filter_iff.1 h).2

theorem le_of_mem_stepBack? {expected floor last distance position : Nat}
    (h : position ∈ stepBack? expected floor last distance) : position ≤ last := by
  unfold stepBack? at h
  split at h
  · have hbounds := (Option.mem_filter_iff.1 h).2
    simp only [decide_eq_true_eq] at hbounds
    exact hbounds.2
  · cases h

theorem toList_steps {expected floor last : Nat} (hlast : last ≤ maxNumber)
    (hexpected : expected ≤ last) (distance : Nat) :
    (stepForth? expected last distance).toList ++ (stepBack? expected floor last distance).toList =
      atDistance expected floor last distance := by
  have hforth : (stepForth? expected last distance).toList =
      if expected + distance ≤ last then [expected + distance] else [] := by
    unfold stepForth? add? upTo?
    grind
  have hback : (stepBack? expected floor last distance).toList =
      if 0 < distance ∧ floor + distance ≤ expected then [expected - distance] else [] := by
    unfold stepBack? sub?
    split_ifs <;> simp_all <;> omega
  rw [hforth, hback, atDistance]

theorem search_eq {lines block : List String} {expected floor last : Nat}
    (hlines : lines.length ≤ maxNumber) (hlast : last + block.length ≤ lines.length)
    (hexpected : expected ≤ last) (distances : List Nat) :
    search lines block expected floor last distances =
      some ((distances.flatMap (atDistance expected floor last)).find? (occursAt lines block)) := by
  induction distances with
  | nil => rfl
  | cons distance distances ih =>
    have hforth := tryAt_eq hlines block (stepForth? expected last distance) fun position h =>
      Nat.le_trans (Nat.add_le_add_right (le_of_mem_stepForth? h) _) hlast
    have hback := tryAt_eq hlines block (stepBack? expected floor last distance) fun position h =>
      Nat.le_trans (Nat.add_le_add_right (le_of_mem_stepBack? h) _) hlast
    rw [search, hforth, hback, List.flatMap_cons, ← toList_steps (by omega) hexpected,
      List.append_assoc, List.find?_append, List.find?_append, ih]
    cases (stepForth? expected last distance).toList.find? (occursAt lines block) with
    | some position => rfl
    | none =>
      cases (stepBack? expected floor last distance).toList.find? (occursAt lines block) <;> rfl

/-- The search for a block that stays behind the hunk in front stays in range. -/
theorem locate_eq {lines block : List String} {expected floor : Nat}
    (hlines : lines.length ≤ maxNumber) :
    locate lines block expected floor = some (Hunk.locate lines block expected floor) := by
  unfold locate Hunk.locate
  by_cases hroom : lines.length < floor + block.length
  · rw [if_pos hroom]
    by_cases hle : block.length ≤ lines.length
    · rw [sub?_of_le hle]
      exact if_pos (by omega)
    · rw [sub?, if_neg hle]
  rw [if_neg hroom, sub?_of_le (by omega)]
  dsimp only
  rw [if_neg (by omega)]
  by_cases hblock : block = []
  · rw [if_pos hblock, if_pos hblock, hblock, List.length_nil, Nat.sub_zero]
  · rw [if_neg hblock, if_neg hblock, search_eq hlines (by omega) (Nat.min_le_right _ _),
      Hunk.candidates]
    rfl

/-! ## A run -/

/-- The lines from `cursor` on, with the new lines of each hunk in place of its old ones. The hunks
have numbers, and the one in front was moved by `shift`. -/
def applyFrom (lines : List String) (cursor : Nat) (shift : Int) :
    List (Hunk × Nat) → Run Conflict (List String)
  | [] => liftM (slice? lines cursor lines.length)
  | (h, index) :: hs => do
    let expected := max (shifted h.oldIndex shift) cursor
    match ← locate lines h.oldLines expected cursor with
    | none => throw (Hunk.conflict index h expected)
    | some position =>
      let kept ← slice? lines cursor position
      let cursor ← add? position h.oldLines.length
      let start ← signed? position
      let behind ← applyFrom lines cursor (subSaturating start (min h.oldIndex maxShift : Nat)) hs
      return kept ++ h.newLines ++ behind

def applyAll (text : String) (hunks : List Hunk) : Run Conflict String := do
  let lines ← applyFrom (Text.lines text) 0 0 hunks.zipIdx
  return Text.join lines

theorem applyFrom_eq {lines : List String} (hlines : lines.length ≤ maxShift) {cursor : Nat}
    (hcursor : cursor ≤ lines.length) (shift : Int) (index : Nat) (hs : List Hunk) :
    applyFrom lines cursor shift (hs.zipIdx index) = .exactly
      (Hunk.applyFrom lines cursor shift index hs) := by
  have hcount : lines.length ≤ maxNumber := Nat.le_trans hlines (by decide)
  induction hs generalizing cursor shift index with
  | nil =>
    rw [List.zipIdx_nil, applyFrom, slice?_of_le hcursor (Nat.le_refl _), List.extract_eq_take_drop,
      List.take_of_length_le (by simp)]
    rfl
  | cons h hs ih =>
    rw [List.zipIdx_cons, applyFrom, locate_eq hcount, Run.liftM_some_bind]
    cases hlocate : Hunk.locate lines h.oldLines (max (shifted h.oldIndex shift) cursor) cursor with
    | none =>
      rw [Hunk.applyFrom_of_locate_eq_none hlocate]
      rfl
    | some position =>
      have hplace := (Hunk.locate_eq_some_iff (Nat.le_max_right _ _)).1 hlocate
      have hfloor := (Hunk.prefix_of_locate (Nat.le_max_right _ _) hlocate).1
      have hend := hplace.le_length
      have hposition : position ≤ maxShift := by omega
      have hkept := slice?_of_le hfloor (by omega : position ≤ lines.length)
      dsimp only
      rw [hkept, Run.liftM_some_bind, add?_of_le (by omega), Run.liftM_some_bind,
        signed?_of_le hposition, Run.liftM_some_bind, subSaturating_of_le hposition
          (Nat.min_le_right _ _), ih hend,
        Hunk.applyFrom_of_locate_eq_some hlocate]
      cases Hunk.applyFrom lines _ _ _ hs <;> rfl

theorem applyAll_eq {text : String} (h : (Text.lines text).length ≤ maxShift) (hunks : List Hunk) :
    applyAll text hunks = .exactly (Hunk.applyAll text hunks) := by
  rw [applyAll, applyFrom_eq h (Nat.zero_le _), Hunk.applyFrom_zero, Hunk.applyAll]
  cases Hunk.applyLines (Text.lines text) hunks <;> rfl

/-- No step leaves its range when a patch is read and hunks are applied to a text, whatever numbers
stand in the headers and however the hunks lie. Both texts fit into memory, as every text does. -/
theorem parse_applyAll_inRange {body text : String} (hbody : body.toUTF8.size ≤ Content.maxSize)
    (htext : text.toUTF8.size ≤ Content.maxSize) :
    parse body = .exactly (Patch.parse body) ∧
      ∀ hunks, applyAll text hunks = .exactly (Hunk.applyAll text hunks) := by
  have hcount : (Text.lines body).length ≤ maxNumber :=
    Nat.le_trans (Nat.le_trans (Text.length_lines_le body) hbody) (by decide)
  exact ⟨parse_eq hcount, applyAll_eq (Nat.le_trans (Text.length_lines_le text) htext)⟩

/-- The largest numbers that a header can hold: the first hunk is found far in front of where it
should stand, and what it is moved by counts for the second one. -/
theorem parse_applyAll_inRange_largest :
    let body :=
      "--- a/f\n+++ b/f\n@@ -18446744073709551615 +2 @@\n-b\n+c\n@@ -18446744073709551615,0 +3 @@\n+d\n"
    let text := "a\nb\n"
    let first : Hunk :=
      ⟨18446744073709551615, 1, 2, 1, none, [⟨.deletion, "b\n"⟩, ⟨.insertion, "c\n"⟩]⟩
    let second : Hunk := ⟨18446744073709551615, 0, 3, 1, none, [⟨.insertion, "d\n"⟩]⟩
    body.toUTF8.size ≤ Content.maxSize ∧ text.toUTF8.size ≤ Content.maxSize ∧
      parse body = .exactly (.ok ⟨⟨"f"⟩, .modify, [first, second]⟩) ∧
      applyAll text [first] = .exactly (.ok "a\nc\n") ∧
      applyAll text [first, second] =
        .exactly (.error ⟨1, "@@ -18446744073709551615,0 +3 @@", 9223372036854775810, "+d\n"⟩) := by
  intro body text first second
  have hbody : body.toUTF8.size ≤ Content.maxSize := by decide +kernel
  have htext : text.toUTF8.size ≤ Content.maxSize := by decide +kernel
  obtain ⟨hparse, happly⟩ := parse_applyAll_inRange hbody htext
  exact ⟨hbody, htext, hparse.trans (congrArg _ (by decide +kernel)), (happly _).trans
    (congrArg _ (by decide +kernel)), (happly _).trans (congrArg _ (by decide +kernel))⟩

end Patchwork.Word
