import Mathlib.Data.Nat.Dist
import Patchwork.Proofs.Hunk.Splice

/-!
# The nearest place

The search tries the free positions in the order of their distance from the expected one
(`pairwise_candidates`), so what it finds is the nearest place of a block, and the later one of two
that are equally near (`locate_eq_some_iff`). Hunks are therefore applied greedily: each takes the
nearest place behind the one in front of it, and the first that has none is reported
(`applyAll_greedy`).
-/
namespace Patchwork.Hunk

/-! ## One search -/

/-- A position is preferred to another if it lies nearer to the expected one, or as near and behind
the other. -/
def IsPreferred (expected position other : Nat) : Prop :=
  position.dist expected < other.dist expected ∨
    position.dist expected = other.dist expected ∧ other ≤ position

namespace IsPreferred

variable {expected position other : Nat}

theorem refl (expected position : Nat) : IsPreferred expected position position :=
  .inr ⟨rfl, Nat.le_refl _⟩

theorem antisymm (h : IsPreferred expected position other)
    (h' : IsPreferred expected other position) :
    position = other := by
  unfold IsPreferred at h h'
  omega

theorem min_iff {last : Nat} (h : position ≤ last) (h' : other ≤ last) :
    IsPreferred (min expected last) position other ↔ IsPreferred expected position other := by
  unfold IsPreferred Nat.dist
  omega

end IsPreferred

/-- In a list whose members are preferred to those behind them, the one that is found is preferred
to all that could have been. -/
theorem find?_eq_some_iff_isPreferred {expected position : Nat} {positions : List Nat}
    {p : Nat → Bool} (h : positions.Pairwise (IsPreferred expected)) :
    positions.find? p = some position ↔ (position ∈ positions ∧ p position = true) ∧
      ∀ other ∈ positions, p other = true → IsPreferred expected position other := by
  have hfirst : ∀ position, positions.find? p = some position →
      ∀ other ∈ positions, p other = true → IsPreferred expected position other := by
    intro position hfound other hother hp
    obtain ⟨-, front, back, rfl, hfront⟩ := List.find?_eq_some_iff_append.1 hfound
    rcases List.mem_append.1 hother with hother | hother
    · exact absurd hp (by simpa using hfront other hother)
    · rcases List.mem_cons.1 hother with rfl | hother
      · exact .refl _ _
      · exact (List.pairwise_cons.1 (List.pairwise_append.1 h).2.1).1 other hother
  constructor
  · intro hfound
    exact ⟨⟨List.mem_of_find?_eq_some hfound, List.find?_some hfound⟩, hfirst position hfound⟩
  · rintro ⟨⟨hmem, hp⟩, hpreferred⟩
    cases hfound : positions.find? p with
    | none => exact absurd hp (List.find?_eq_none.1 hfound position hmem)
    | some found =>
      have hback := hpreferred found (List.mem_of_find?_eq_some hfound) (List.find?_some hfound)
      rw [hback.antisymm (hfirst found hfound position hmem hp)]

def atDistance (expected floor last distance : Nat) : List Nat :=
  (if expected + distance ≤ last then [expected + distance] else []) ++
    (if 0 < distance ∧ floor + distance ≤ expected then [expected - distance] else [])

theorem mem_atDistance_iff {expected floor last distance position : Nat} :
    position ∈ atDistance expected floor last distance ↔
      expected + distance ≤ last ∧ position = expected + distance ∨
        (0 < distance ∧ floor + distance ≤ expected) ∧ position = expected - distance := by
  unfold atDistance
  split_ifs <;> simp_all

theorem dist_of_mem_atDistance {expected floor last distance position : Nat}
    (h : position ∈ atDistance expected floor last distance) :
    position.dist expected = distance := by
  rw [mem_atDistance_iff] at h
  unfold Nat.dist
  omega

theorem mem_candidates_iff {expected floor last position : Nat} (hfloor : floor ≤ expected)
    (hlast : expected ≤ last) :
    position ∈ candidates expected floor last ↔ floor ≤ position ∧ position ≤ last := by
  constructor
  · intro h
    have hbounds := mem_candidates hfloor h
    rwa [Nat.max_eq_right hlast] at hbounds
  · rintro ⟨hfrom, hto⟩
    refine List.mem_flatMap.2 ⟨position.dist expected, ?_, mem_atDistance_iff.2 ?_⟩
    · rw [List.mem_range]
      unfold Nat.dist
      omega
    · unfold Nat.dist
      omega

theorem pairwise_candidates (expected floor last : Nat) :
    (candidates expected floor last).Pairwise (IsPreferred expected) := by
  refine List.pairwise_flatMap.2 ⟨fun distance _ => ?_, ?_⟩
  · split_ifs with hbehind hbefore
    · refine List.pairwise_pair.2 (.inr ⟨?_, by omega⟩)
      unfold Nat.dist
      omega
    all_goals simp
  · refine List.pairwise_lt_range.imp fun hlt position hposition other hother => .inl ?_
    rw [dist_of_mem_atDistance hposition, dist_of_mem_atDistance hother]
    exact hlt

/-- The place of a block among lines of which those in front of `cursor` are taken: the position
where it stands that is preferred to every other one where it stands. An empty block has its place
where it is expected. -/
def IsPlace (lines block : List String) (cursor expected position : Nat) : Prop :=
  if block = [] then position = expected ∧ expected ≤ lines.length
  else (cursor ≤ position ∧ block <+: lines.drop position) ∧
    ∀ other, cursor ≤ other → block <+: lines.drop other → IsPreferred expected position other

theorem le_of_prefix_drop {lines block : List String} {position : Nat} (hblock : block ≠ [])
    (h : block <+: lines.drop position) : position + block.length ≤ lines.length := by
  have hlength := h.length_le
  have hpos := List.length_pos_iff.2 hblock
  rw [List.length_drop] at hlength
  omega

theorem IsPlace.le_length {lines block : List String} {cursor expected position : Nat}
    (h : IsPlace lines block cursor expected position) :
    position + block.length ≤ lines.length := by
  unfold IsPlace at h
  split_ifs at h with hblock
  · simpa [hblock, h.1] using h.2
  · exact le_of_prefix_drop hblock h.1.2

theorem mem_candidates_occursAt_iff {lines block : List String} {expected floor position : Nat}
    (hblock : block ≠ []) (hfloor : floor ≤ expected)
    (hroom : floor + block.length ≤ lines.length) :
    (position ∈ candidates (min expected (lines.length - block.length)) floor
      (lines.length - block.length) ∧
      occursAt lines block position = true) ↔ floor ≤ position ∧ block <+: lines.drop position := by
  rw [mem_candidates_iff (by omega) (by omega), occursAt_iff]
  constructor
  · rintro ⟨⟨hfrom, -⟩, hat⟩
    exact ⟨hfrom, hat⟩
  · rintro ⟨hfrom, hat⟩
    have hend := le_of_prefix_drop hblock hat
    exact ⟨⟨hfrom, by omega⟩, hat⟩

theorem locate_eq_some_iff {lines block : List String} {expected floor position : Nat}
    (hfloor : floor ≤ expected) :
    locate lines block expected floor = some position ↔
      IsPlace lines block floor expected position := by
  unfold locate IsPlace
  by_cases hblock : block = []
  · subst hblock
    by_cases hle : expected ≤ lines.length
    · simp [hle, Nat.not_lt.2 (Nat.le_trans hfloor hle), eq_comm]
    · simp [hle]
  rw [if_neg hblock, if_neg hblock]
  by_cases hroom : lines.length < floor + block.length
  · rw [if_pos hroom]
    refine iff_of_false nofun fun ⟨⟨hle, hat⟩, _⟩ => ?_
    have hend := le_of_prefix_drop hblock hat
    omega
  rw [if_neg hroom]
  dsimp only
  have htried : ∀ other, _ ↔ floor ≤ other ∧ block <+: lines.drop other := fun _ =>
    mem_candidates_occursAt_iff hblock hfloor (Nat.not_lt.1 hroom)
  have hlast : ∀ other, block <+: lines.drop other → other ≤ lines.length - block.length := by
    intro other hat
    have hend := le_of_prefix_drop hblock hat
    omega
  rw [find?_eq_some_iff_isPreferred (pairwise_candidates _ _ _), htried]
  refine and_congr_right fun hposition => forall_congr' fun other => ?_
  rw [← and_imp, ← and_imp, htried]
  exact imp_congr_right fun hother => IsPreferred.min_iff (hlast position hposition.2)
    (hlast other hother.2)

/-! ## A run -/

/-- The position where a hunk is expected, if the hunk in front of it was moved by `shift` and ends
at `cursor`. -/
def expectedAt (h : Hunk) (cursor : Nat) (shift : Int) : Nat :=
  max cursor (h.oldIndex + shift).toNat

/-- Greedy replacement in the lines from `cursor` on, where `index` hunks stand in front and the
last of them was moved by `shift`. Each hunk replaces its block at its place, everything else is
kept, and the first hunk that has no place is reported. -/
inductive Greedy (lines : List String) : Nat → Int → Nat → List Hunk →
  Except Conflict (List String) → Prop
  | done (cursor : Nat) (shift : Int) (index : Nat) : Greedy lines cursor shift index []
    (.ok (lines.drop cursor))
  | placed {cursor : Nat} {shift : Int} {index position : Nat} {h : Hunk} {hs : List Hunk}
    {result : Except Conflict (List String)}
    (place : IsPlace lines h.oldLines cursor (h.expectedAt cursor shift) position)
    (rest : Greedy lines (position + h.oldLines.length) (position - h.oldIndex)
      (index + 1) hs result) :
    Greedy lines cursor shift index (h :: hs)
      (result.map fun behind => lines.extract cursor position ++ h.newLines ++ behind)
  | stuck {cursor : Nat} {shift : Int} {index : Nat} {h : Hunk} {hs : List Hunk}
    (nowhere : ∀ position, ¬ IsPlace lines h.oldLines cursor (h.expectedAt cursor shift) position) :
    Greedy lines cursor shift index (h :: hs)
      (.error ⟨index, h.header, h.expectedAt cursor shift + 1, h.plainBody⟩)

/-- Numbers below half of what a header can hold are moved without reaching its bound. -/
theorem shifted_eq {declared : Nat} {shift : Int} (hdeclared : declared ≤ maxShift)
    (hshift : shift ≤ maxShift) :
    shifted declared shift = (declared + shift).toNat := by
  have hbound : maxShift + maxShift ≤ maxNumber := by decide
  unfold shifted
  omega

variable {lines : List String} {cursor position index : Nat} {shift : Int} {h : Hunk}
    {hs : List Hunk}

theorem greedy_cons_iff_of_nowhere {result : Except Conflict (List String)}
    (hnowhere : ∀ position, ¬ IsPlace lines h.oldLines cursor
    (h.expectedAt cursor shift) position) :
    Greedy lines cursor shift index (h :: hs) result ↔
      .error ⟨index, h.header, h.expectedAt cursor shift + 1, h.plainBody⟩ = result := by
  constructor
  · intro hgreedy
    cases hgreedy with
    | placed hplace _ => exact absurd hplace (hnowhere _)
    | stuck _ => rfl
  · rintro rfl
    exact .stuck hnowhere

theorem greedy_cons_iff_of_isPlace {result : Except Conflict (List String)}
    (hplace : IsPlace lines h.oldLines cursor (h.expectedAt cursor shift) position) :
    Greedy lines cursor shift index (h :: hs) result ↔ ∃ behind,
      Greedy lines (position + h.oldLines.length) (position - h.oldIndex) (index + 1) hs behind ∧
        behind.map (fun behind => lines.extract cursor position ++ h.newLines ++ behind) =
          result := by
  constructor
  · intro hgreedy
    cases hgreedy with
    | placed hplace' rest =>
      have hlocate := (locate_eq_some_iff (Nat.le_max_left _ _)).2 hplace
      rw [(locate_eq_some_iff (Nat.le_max_left _ _)).2 hplace'] at hlocate
      obtain rfl := Option.some.inj hlocate
      exact ⟨_, rest, rfl⟩
    | stuck hnowhere => exact absurd hplace (hnowhere _)
  · rintro ⟨behind, rest, rfl⟩
    exact .placed hplace rest

def applyFrom (lines : List String) (cursor : Nat) (shift : Int) (index : Nat) (hs : List Hunk) :
    Except Conflict (List String) :=
  (place lines cursor shift index hs).map fun positions => splice lines cursor (positions.zip hs)

theorem applyFrom_zero (lines : List String) (hs : List Hunk) :
    applyFrom lines 0 0 0 hs = applyLines lines hs := by
  unfold applyFrom applyLines
  cases place lines 0 0 0 hs <;> rfl

theorem applyFrom_of_locate_eq_none
    (hlocate : locate lines h.oldLines (max (shifted h.oldIndex shift) cursor) cursor = none) :
    applyFrom lines cursor shift index (h :: hs) =
      .error (conflict index h (max (shifted h.oldIndex shift) cursor)) := by
  rw [applyFrom, place]
  simp only [hlocate]
  rfl

theorem applyFrom_of_locate_eq_some
    (hlocate : locate lines h.oldLines (max (shifted h.oldIndex shift) cursor) cursor =
      some position) :
    applyFrom lines cursor shift index (h :: hs) =
      (applyFrom lines (position + h.oldLines.length) (position - min h.oldIndex maxShift)
        (index + 1) hs).map
        fun behind => lines.extract cursor position ++ h.newLines ++ behind := by
  rw [applyFrom, place]
  simp only [hlocate]
  unfold applyFrom
  cases place lines (position + h.oldLines.length) (position - min h.oldIndex maxShift)
    (index + 1) hs <;> rfl

/-- A hunk is expected where greedy replacement expects it, and a report says so. -/
theorem expected_eq (index : Nat) (hindex : h.oldIndex ≤ maxShift) (hshift : shift ≤ maxShift)
    (hcursor : cursor ≤ maxShift) :
    max (shifted h.oldIndex shift) cursor = h.expectedAt cursor shift ∧
      conflict index h (h.expectedAt cursor shift) =
        ⟨index, h.header, h.expectedAt cursor shift + 1, h.plainBody⟩ := by
  have hbound : maxShift + maxShift + 1 ≤ maxNumber := by decide
  constructor
  · rw [shifted_eq hindex hshift, Nat.max_comm, expectedAt]
  · rw [conflict, Nat.min_eq_left]
    unfold expectedAt
    omega

/-- Greedy replacement is what placing and splicing come to, where no number reaches its bound. -/
theorem greedy_iff (hlines : lines.length ≤ maxShift) (hstarts : ∀ h ∈ hs, h.oldStart ≤ maxShift)
    (hcursor : cursor ≤ lines.length) (hshift : shift ≤ maxShift)
    {result : Except Conflict (List String)} :
    Greedy lines cursor shift index hs result ↔ applyFrom lines cursor shift index hs = result := by
  induction hs generalizing cursor shift index result with
  | nil =>
    constructor
    · intro hgreedy
      cases hgreedy
      rfl
    · rintro rfl
      exact .done cursor shift index
  | cons h hs ih =>
    obtain ⟨hstart, hstarts⟩ := List.forall_mem_cons.1 hstarts
    have hindex : h.oldIndex ≤ maxShift := Nat.le_trans h.oldIndex_le hstart
    obtain ⟨hexpected, hconflict⟩ := expected_eq index hindex hshift (Nat.le_trans hcursor hlines)
    have hplaces : ∀ position, locate lines h.oldLines (h.expectedAt cursor shift) cursor =
        some position ↔ IsPlace lines h.oldLines cursor
        (h.expectedAt cursor shift) position := fun _ =>
      locate_eq_some_iff (Nat.le_max_left _ _)
    cases hlocate : locate lines h.oldLines (h.expectedAt cursor shift) cursor with
    | none =>
      have hnowhere : ∀ position, ¬ IsPlace lines h.oldLines cursor
          (h.expectedAt cursor shift) position := by
        simp [← hplaces, hlocate]
      rw [← hexpected] at hlocate
      rw [greedy_cons_iff_of_nowhere hnowhere, applyFrom_of_locate_eq_none hlocate, hexpected,
        hconflict]
    | some position =>
      have hplace := (hplaces position).1 hlocate
      have hend := hplace.le_length
      have hmoved : (position : Int) - h.oldIndex ≤ maxShift := by omega
      rw [← hexpected] at hlocate
      rw [greedy_cons_iff_of_isPlace hplace, applyFrom_of_locate_eq_some hlocate,
        Nat.min_eq_left hindex]
      simp only [ih hstarts hend hmoved, exists_eq_left']

/-- Hunks are applied to a text greedily, line by line. Their result joins the lines that greedy
replacement leaves, and they fail with the report of the first hunk that has no place. The numbers
of the headers and of the lines are below half of what a header can hold. -/
theorem applyAll_greedy {text : String} {hs : List Hunk}
    (hlines : (Text.lines text).length ≤ maxShift) (hstarts : ∀ h ∈ hs, h.oldStart ≤ maxShift) :
    (∀ out, applyAll text hs = .ok out ↔
      ∃ spliced, Greedy (Text.lines text) 0 0 0 hs (.ok spliced) ∧ Text.join spliced = out) ∧
    ∀ c, applyAll text hs = .error c ↔ Greedy (Text.lines text) 0 0 0 hs (.error c) := by
  have hgreedy : ∀ result, Greedy (Text.lines text) 0 0 0 hs result ↔
      applyLines (Text.lines text) hs = result := by
    intro result
    rw [greedy_iff hlines hstarts (Nat.zero_le _) (Int.natCast_nonneg _), applyFrom_zero]
  constructor
  · intro out
    rw [applyAll_eq_ok_iff]
    simp only [hgreedy]
  · intro c
    rw [hgreedy, applyAll]
    cases applyLines (Text.lines text) hs <;> simp

/-- Twice the line `x` is as near as can be, and the later one is taken; the second hunk is moved
along with the first and may not reach into its block. -/
theorem applyAll_greedy_tie :
    let text := "x\na\nx\nb\nx\n"
    let first : Hunk := ⟨2, 1, 2, 1, none, [⟨.deletion, "x\n"⟩, ⟨.insertion, "y\n"⟩]⟩
    let second : Hunk := ⟨2, 1, 2, 1, none, [⟨.deletion, "x\n"⟩]⟩
    (Text.lines text).length ≤ maxShift ∧ (∀ h ∈ [first, second], h.oldStart ≤ maxShift) ∧
      (∃ spliced, Greedy (Text.lines text) 0 0 0 [first, second] (.ok spliced) ∧
        Text.join spliced = "x\na\ny\nb\n") ∧
      Greedy (Text.lines text) 0 0 0 [first, second, second]
        (.error ⟨2, "@@ -2 +2 @@", 6, "-x\n"⟩) := by
  intro text first second
  have hlines : (Text.lines text).length ≤ maxShift := by decide +kernel
  have hstarts : ∀ h ∈ [first, second, second], h.oldStart ≤ maxShift := by decide
  refine ⟨hlines, by decide, ?_, ?_⟩
  · exact ((applyAll_greedy hlines (by decide)).1 _).1 (by decide +kernel)
  · exact ((applyAll_greedy hlines hstarts).2 _).1 (by decide +kernel)

end Patchwork.Hunk
