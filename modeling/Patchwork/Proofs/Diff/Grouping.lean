import Patchwork.Diff.Grouping
import Patchwork.Proofs.Diff.Compaction
import Patchwork.Proofs.Hunk.Placement

/-!
# The hunks of a diff lead from the old lines to the new ones

An outline has the same sides as its script. Cut into hunks, its lines fall into the blocks of the
hunks and kept lines between them, because two hunks are made only where their contexts do not meet.
So the hunks of a diff stand in order where their headers say and turn the old text into the new one
(`hunks_leads`).
-/
namespace Patchwork.Diff

/-! ## Sides of lines and outlines -/

def oldTexts (ls : List Line) : List String := (ls.filter (·.kind.isOld)).map (·.text)

def newTexts (ls : List Line) : List String := (ls.filter (·.kind.isNew)).map (·.text)

@[simp] theorem oldTexts_append (ls ms : List Line) :
    oldTexts (ls ++ ms) = oldTexts ls ++ oldTexts ms := by
  simp [oldTexts]

@[simp] theorem newTexts_append (ls ms : List Line) :
    newTexts (ls ++ ms) = newTexts ls ++ newTexts ms := by
  simp [newTexts]

@[simp] theorem oldTexts_contextLines (ls : List String) : oldTexts (contextLines ls) = ls := by
  simp [oldTexts, contextLines, List.filter_map, Function.comp_def, LineKind.isOld]

@[simp] theorem newTexts_contextLines (ls : List String) : newTexts (contextLines ls) = ls := by
  simp [newTexts, contextLines, List.filter_map, Function.comp_def, LineKind.isNew]

@[simp] theorem oldTexts_lines (c : Change) : oldTexts c.lines = c.deleted := by
  simp [oldTexts, Change.lines, List.filter_map, Function.comp_def, LineKind.isOld]

@[simp] theorem newTexts_lines (c : Change) : newTexts c.lines = c.inserted := by
  simp [newTexts, Change.lines, List.filter_map, Function.comp_def, LineKind.isNew]

theorem length_oldTexts (ls : List Line) : (oldTexts ls).length = countOld ls := by
  rw [oldTexts, List.length_map, countOld, List.countP_eq_length_filter]

theorem length_newTexts (ls : List Line) : (newTexts ls).length = countNew ls := by
  rw [newTexts, List.length_map, countNew, List.countP_eq_length_filter]

def stepLines (part : Change → List String) (steps : List Step) : List String :=
  steps.flatMap fun step => part step.1 ++ step.2

@[simp] theorem stepLines_nil (part : Change → List String) : stepLines part [] = [] := rfl

@[simp] theorem stepLines_cons (part : Change → List String) (c : Change) (kept : List String)
    (steps : List Step) :
    stepLines part ((c, kept) :: steps) = part c ++ (kept ++ stepLines part steps) := by
  simp [stepLines]

namespace Outline

def lines (part : Change → List String) (o : Outline) : List String :=
  o.start ++ stepLines part o.steps

theorem lines_onChange (part : Change → List String) (f : Change → Change) (ls : List String)
    (hf : ∀ c, part (f c) = ls ++ part c) (hnil : part ⟨[], []⟩ = []) (o : Outline) :
    (o.onChange f).lines part = ls ++ o.lines part := by
  unfold onChange
  split
  · rename_i c kept steps hstart hsteps
    simp [lines, hstart, hsteps, hf]
  · simp [lines, hf, hnil]

theorem lines_deleted_ofScript (s : Script) :
    (ofScript s).lines Change.deleted = s.side LineKind.isOld := by
  induction s with
  | nil => rfl
  | cons r rs ih =>
    obtain ⟨kind, ls⟩ := r
    cases kind with
    | context =>
      rw [Script.side_cons, ← ih]
      exact List.append_assoc _ _ _
    | deletion =>
      rw [Script.side_cons, ← ih]
      exact lines_onChange Change.deleted (.delete ls) ls (fun c => rfl) rfl _
    | insertion =>
      rw [Script.side_cons, ← ih]
      exact lines_onChange Change.deleted (.insert ls) [] (fun c => rfl) rfl _

theorem lines_inserted_ofScript (s : Script) :
    (ofScript s).lines Change.inserted = s.side LineKind.isNew := by
  induction s with
  | nil => rfl
  | cons r rs ih =>
    obtain ⟨kind, ls⟩ := r
    cases kind with
    | context =>
      rw [Script.side_cons, ← ih]
      exact List.append_assoc _ _ _
    | deletion =>
      rw [Script.side_cons, ← ih]
      exact lines_onChange Change.inserted (.delete ls) [] (fun c => rfl) rfl _
    | insertion =>
      rw [Script.side_cons, ← ih]
      exact lines_onChange Change.inserted (.insert ls) ls (fun c => rfl) rfl _

/-- Between two changes something is kept. -/
def IsSeparated (o : Outline) : Prop := ∀ step ∈ o.steps.dropLast, step.2 ≠ []

theorem IsSeparated.onChange {o : Outline} (h : o.IsSeparated) (f : Change → Change) :
    (o.onChange f).IsSeparated := by
  unfold Outline.onChange
  split
  · rename_i c kept steps hstart hsteps
    rw [IsSeparated, hsteps] at h
    cases steps with
    | nil => simp [IsSeparated]
    | cons step steps => simpa [IsSeparated] using h
  · rename_i start steps hnot
    cases hsteps : o.steps with
    | nil => simp [IsSeparated]
    | cons step steps =>
      obtain ⟨c, kept⟩ := step
      have hstart : o.start ≠ [] := fun hs => hnot c kept steps hs hsteps
      rw [IsSeparated, hsteps] at h
      simpa [IsSeparated, hstart] using h

theorem isSeparated_ofScript (s : Script) : (ofScript s).IsSeparated := by
  induction s with
  | nil => simp [IsSeparated, ofScript]
  | cons r rs ih =>
    unfold ofScript
    dsimp only
    split
    · exact ih
    · exact ih.onChange _
    · exact ih.onChange _

end Outline

/-! ## Cutting into hunks -/

theorem standsAt_hunkAt (old new : Nat) (leading : List String) (body : List Line) :
    (hunkAt old new leading body).StandsAt (old - leading.length) (new - leading.length) where
  oldIndex := by
    simp only [hunkAt, Hunk.oldIndex, startOf]
    split <;> simp
  newIndex := by
    simp only [hunkAt, Hunk.newIndex, startOf]
    split <;> simp
  oldLength := (length_oldTexts _).symm
  newLength := (length_newTexts _).symm
  heading := rfl

theorem oldLines_hunkAt (old new : Nat) (leading : List String) (body : List Line) :
    (hunkAt old new leading body).oldLines = leading ++ oldTexts body := by
  show oldTexts (contextLines leading ++ body) = _
  simp

theorem newLines_hunkAt (old new : Nat) (leading : List String) (body : List Line) :
    (hunkAt old new leading body).newLines = leading ++ newTexts body := by
  show newTexts (contextLines leading ++ body) = _
  simp

theorem hunkAt_leads {old new : Nat} (gap leading : List String) {body : List Line}
    {restOld restNew : List String} {later : List Hunk}
    (rest : Hunk.Leads (old + gap.length + leading.length + (oldTexts body).length)
      (new + gap.length + leading.length + (newTexts body).length) restOld later restNew) :
    Hunk.Leads old new (gap ++ (leading ++ (oldTexts body ++ restOld)))
      (hunkAt (old + gap.length + leading.length)
        (new + gap.length + leading.length) leading body ::
        later)
      (gap ++ (leading ++ (newTexts body ++ restNew))) := by
  have hstands := standsAt_hunkAt (old + gap.length + leading.length)
    (new + gap.length + leading.length) leading body
  have holdLines := oldLines_hunkAt (old + gap.length + leading.length)
    (new + gap.length + leading.length) leading body
  have hnewLines := newLines_hunkAt (old + gap.length + leading.length)
    (new + gap.length + leading.length) leading body
  rw [Nat.add_sub_cancel, Nat.add_sub_cancel] at hstands
  generalize hunkAt (old + gap.length + leading.length) (new + gap.length + leading.length) leading
    body = h at hstands holdLines hnewLines ⊢
  rw [← List.append_assoc leading, ← List.append_assoc leading, ← holdLines, ← hnewLines]
  refine .hunk hstands ?_
  rw [holdLines, hnewLines, List.length_append, List.length_append, ← Nat.add_assoc,
    ← Nat.add_assoc]
  exact rest

theorem length_lastKept (context : Nat) (kept : List String) :
    (lastKept context kept).length = min context kept.length := by
  rw [lastKept, List.length_drop]
  omega

/-- Hunks are cut apart only where their contexts do not meet. -/
theorem two_mul_le_of_joins_eq_false {context : Nat} {kept : List String} {steps : List Step}
    (hsteps : steps ≠ []) (h : ¬joins context kept steps = true) : 2 * context ≤ kept.length := by
  cases steps with
  | nil => exact absurd rfl hsteps
  | cons step steps =>
    obtain ⟨c, kept'⟩ := step
    rw [joins] at h
    by_cases hend : c.deleted = [] ∧ kept' = [] ∧ steps = []
    · rw [if_pos hend, decide_eq_true_eq] at h
      omega
    · rw [if_neg hend, decide_eq_true_eq] at h
      omega

theorem drop_eq_append_lastKept {context : Nat} {kept : List String}
    (h : 2 * context ≤ kept.length) :
    kept.drop context =
      (kept.drop context).take (kept.length - 2 * context) ++ lastKept context kept := by
  have hsum : context + (kept.length - 2 * context) = kept.length - context := by omega
  rw [lastKept, ← hsum, ← List.drop_drop, List.take_append_drop]

/-- The lines of the first hunk come first, and the later hunks lead from the rest of one side to
the rest of the other. -/
theorem continueHunk_leads (context old new : Nat) (steps : List Step) :
    ∃ restOld restNew,
      stepLines Change.deleted steps = oldTexts (continueHunk context old new steps).1 ++ restOld ∧
      stepLines Change.inserted steps = newTexts (continueHunk context old new steps).1 ++ restNew ∧
      Hunk.Leads (old + (oldTexts (continueHunk context old new steps).1).length)
        (new + (newTexts (continueHunk context old new steps).1).length)
        restOld (continueHunk context old new steps).2 restNew := by
  induction steps generalizing old new with
  | nil => exact ⟨[], [], rfl, rfl, .kept _ _ _⟩
  | cons step steps ih =>
    obtain ⟨c, kept⟩ := step
    obtain ⟨restOld, restNew, hold, hnew, hleads⟩ :=
      ih (old + c.deleted.length + kept.length) (new + c.inserted.length + kept.length)
    rw [continueHunk]
    dsimp only
    generalize continueHunk context (old + c.deleted.length + kept.length)
      (new + c.inserted.length + kept.length) steps = r at hold hnew hleads ⊢
    obtain ⟨body, later⟩ := r
    dsimp only at hold hnew hleads ⊢
    by_cases hjoins : joins context kept steps = true
    · rw [if_pos hjoins]
      refine ⟨restOld, restNew, by simp [hold], by simp [hnew], ?_⟩
      simpa [Nat.add_assoc] using hleads
    · rw [if_neg hjoins]
      by_cases hsteps : steps = []
      · subst steps
        exact ⟨kept.drop context, kept.drop context, by simp, by simp, .kept _ _ _⟩
      · have hkept := two_mul_le_of_joins_eq_false hsteps hjoins
        have hdrop := drop_eq_append_lastKept hkept
        have hlast := length_lastKept context kept
        have hgap : ((kept.drop context).take (kept.length - 2 * context)).length =
            kept.length - 2 * context := by
          rw [List.length_take, List.length_drop]
          omega
        have htake : (kept.take context).length = context := by
          rw [List.length_take]
          omega
        generalize (kept.drop context).take (kept.length - 2 * context) = gap at hdrop hgap
        generalize lastKept context kept = leading at hdrop hlast ⊢
        -- The end of this hunk, what lies between the two, and the start of the next one.
        have hsplit : kept = kept.take context ++ (gap ++ leading) := by
          rw [← hdrop, List.take_append_drop]
        have holdLength : old + (oldTexts (c.lines ++ contextLines (kept.take context))).length +
            gap.length + leading.length = old + c.deleted.length + kept.length := by
          simp [hgap, hlast, htake]
          omega
        have hnewLength : new + (newTexts (c.lines ++ contextLines (kept.take context))).length +
            gap.length + leading.length = new + c.inserted.length + kept.length := by
          simp [hgap, hlast, htake]
          omega
        rw [if_neg hsteps, ← holdLength, ← hnewLength]
        rw [← holdLength, ← hnewLength] at hleads
        refine ⟨_, _, ?_, ?_, hunkAt_leads gap leading hleads⟩
        · rw [stepLines_cons, hold]
          conv_lhs => rw [hsplit]
          simp
        · rw [stepLines_cons, hnew]
          conv_lhs => rw [hsplit]
          simp

theorem hunksOf_leads (context : Nat) {s : Script} {old new : List String} (h : s.Leads old new) :
    Hunk.Leads 0 0 old (hunksOf context s) new := by
  obtain ⟨rfl, rfl⟩ := h
  rw [Script.oldSide_eq_side, Script.newSide_eq_side, ← Outline.lines_deleted_ofScript,
    ← Outline.lines_inserted_ofScript, hunksOf]
  generalize Outline.ofScript s = o
  dsimp only
  by_cases hsteps : o.steps = []
  · rw [if_pos hsteps, Outline.lines, Outline.lines, hsteps]
    exact .kept _ _ _
  · rw [if_neg hsteps, Outline.lines, Outline.lines]
    obtain ⟨restOld, restNew, hold, hnew, hleads⟩ :=
      continueHunk_leads context o.start.length o.start.length o.steps
    generalize continueHunk context o.start.length o.start.length o.steps = r at hold hnew hleads ⊢
    obtain ⟨body, later⟩ := r
    dsimp only at hold hnew hleads ⊢
    have hstart : o.start =
        o.start.take (o.start.length - context) ++ lastKept context o.start := by
      rw [lastKept, List.take_append_drop]
    generalize o.start.take (o.start.length - context) = gap at hstart
    generalize lastKept context o.start = leading at hstart ⊢
    have hlength : o.start.length = 0 + gap.length + leading.length := by
      rw [hstart, List.length_append, Nat.zero_add]
    rw [hlength] at hleads ⊢
    rw [hstart, hold, hnew, List.append_assoc, List.append_assoc]
    exact hunkAt_leads gap leading hleads

/-- The hunks of a diff lead from the lines of the old text to those of the new one. -/
theorem hunks_leads (context : Nat) (old new : String) :
    Hunk.Leads 0 0 (Text.lines old) (hunks context old new) (Text.lines new) :=
  hunksOf_leads context (compact_leads (search_leads _ _))

/-! ## How many hunks -/

theorem length_continueHunk_le (context old new : Nat) (steps : List Step) :
    (continueHunk context old new steps).2.length ≤ steps.length - 1 := by
  induction steps generalizing old new with
  | nil => exact Nat.le_refl _
  | cons step steps ih =>
    obtain ⟨c, kept⟩ := step
    have ih := ih (old + c.deleted.length + kept.length) (new + c.inserted.length + kept.length)
    rw [continueHunk]
    dsimp only
    by_cases hjoins : joins context kept steps = true
    · rw [if_pos hjoins, List.length_cons]
      dsimp only
      omega
    · rw [if_neg hjoins, List.length_cons]
      dsimp only
      cases steps with
      | nil => exact Nat.le_refl _
      | cons step' steps =>
        rw [if_neg (List.cons_ne_nil _ _), List.length_cons]
        rw [List.length_cons] at ih ⊢
        omega

theorem length_hunksOf_le (context : Nat) (s : Script) :
    (hunksOf context s).length ≤ (Outline.ofScript s).steps.length := by
  unfold hunksOf
  dsimp only
  by_cases hsteps : (Outline.ofScript s).steps = []
  · rw [if_pos hsteps]
    exact Nat.zero_le _
  · have hpos := List.length_pos_iff.2 hsteps
    have := length_continueHunk_le context (Outline.ofScript s).start.length
      (Outline.ofScript s).start.length (Outline.ofScript s).steps
    rw [if_neg hsteps, List.length_cons]
    omega

theorem Outline.IsSeparated.length_steps_le_one {o : Outline} (h : o.IsSeparated)
    {part : Change → List String} (hnil : o.lines part = []) : o.steps.length ≤ 1 := by
  rw [IsSeparated] at h
  rw [Outline.lines, List.append_eq_nil_iff] at hnil
  cases hsteps : o.steps with
  | nil => simp
  | cons step steps =>
    cases steps with
    | nil => simp
    | cons step' steps =>
      obtain ⟨c, kept⟩ := step
      have hkept : kept = [] := by
        have := hnil.2
        rw [hsteps, stepLines_cons] at this
        simp only [List.append_eq_nil_iff] at this
        exact this.2.1
      exact absurd hkept (h (c, kept) (by simp [hsteps]))

/-- A text that is created or deleted as a whole makes one hunk at most. -/
theorem length_hunks_le_one (context : Nat) {old new : String}
    (h : Text.lines old = [] ∨ Text.lines new = []) : (hunks context old new).length ≤ 1 := by
  obtain ⟨hold, hnew⟩ := compact_leads (search_leads (Text.lines old) (Text.lines new))
  rw [hunks]
  generalize compact (search (Text.lines old) (Text.lines new)) = s at hold hnew ⊢
  refine Nat.le_trans (length_hunksOf_le context s) ?_
  have hseparated := Outline.isSeparated_ofScript s
  rcases h with h | h
  · exact hseparated.length_steps_le_one
      (by rw [Outline.lines_deleted_ofScript, ← Script.oldSide_eq_side, hold, h])
  · exact hseparated.length_steps_le_one
      (by rw [Outline.lines_inserted_ofScript, ← Script.newSide_eq_side, hnew, h])

end Patchwork.Diff
