import Patchwork.Diff.Compaction

/-!
# Compacting keeps both sides

A side of a script is what stays of it when the runs of one kind are left out. Sliding moves lines
over equal ones and past runs of the other kind, so neither side changes, and a compacted script
leads from and to the same lines (`compact_leads`).
-/
namespace Patchwork.Diff

def Run.kept (keep : LineKind → Bool) (r : Run) : List String := if keep r.kind then r.lines else []

def Script.side (keep : LineKind → Bool) (s : Script) : List String := s.flatMap (Run.kept keep)

/-- A choice of kinds that belongs to one side: lines in common and one of the other kinds. -/
structure IsSide (keep : LineKind → Bool) : Prop where
  context : keep .context = true
  only : keep .deletion = false ∨ keep .insertion = false

theorem isSide_isOld : IsSide LineKind.isOld := ⟨rfl, .inr rfl⟩

theorem isSide_isNew : IsSide LineKind.isNew := ⟨rfl, .inl rfl⟩

namespace Script

variable (keep : LineKind → Bool)

@[simp] theorem side_nil : side keep [] = [] := rfl

@[simp] theorem side_cons (r : Run) (s : Script) :
    side keep (r :: s) = r.kept keep ++ side keep s := rfl

@[simp] theorem side_append (s t : Script) : side keep (s ++ t) = side keep s ++ side keep t := by
  simp [side]

theorem flatMap_filter_eq_side (s : Script) :
    (s.filter (keep ·.kind)).flatMap (·.lines) = side keep s := by
  induction s with
  | nil => rfl
  | cons r s ih =>
    cases h : keep r.kind <;> simp [h, Run.kept, ih]

theorem oldSide_eq_side (s : Script) : s.oldSide = side LineKind.isOld s :=
  flatMap_filter_eq_side _ s

theorem newSide_eq_side (s : Script) : s.newSide = side LineKind.isNew s :=
  flatMap_filter_eq_side _ s

end Script

section side

variable {keep : LineKind → Bool} (hkeep : IsSide keep)
include hkeep

theorem IsSide.kept_context (lines : List String) : Run.kept keep ⟨.context, lines⟩ = lines :=
  if_pos hkeep.context

theorem IsSide.side_keepInFront (lines : List String) (s : Script) :
    (keepInFront lines s).side keep = lines ++ s.side keep := by
  cases s with
  | nil => simp [keepInFront, hkeep.kept_context]
  | cons r rs =>
    by_cases h : r.kind = .context
    · have hr : r.kept keep = r.lines := by rw [Run.kept, h, if_pos hkeep.context]
      simp [keepInFront, h, hkeep.kept_context, hr]
    · simp [keepInFront, h, hkeep.kept_context]

theorem IsSide.side_reverse_keepBehind (lines : List String) (s : Script) :
    Script.side keep (keepBehind lines s).reverse = Script.side keep s.reverse ++ lines := by
  cases s with
  | nil => simp [keepBehind, hkeep.kept_context]
  | cons r rs =>
    by_cases h : r.kind = .context
    · have hr : r.kept keep = r.lines := by rw [Run.kept, h, if_pos hkeep.context]
      simp [keepBehind, h, hkeep.kept_context, hr]
    · simp [keepBehind, h, hkeep.kept_context]

omit hkeep in
theorem side_consRun (r : Run) (s : Script) :
    (consRun r s).side keep = r.kept keep ++ s.side keep := by
  by_cases h : r.lines = []
  · simp [consRun, h, Run.kept]
  · simp [consRun, h]

omit hkeep in
theorem side_reverse_consRun (r : Run) (s : Script) :
    Script.side keep (consRun r s).reverse = Script.side keep s.reverse ++ r.kept keep := by
  by_cases h : r.lines = []
  · simp [consRun, h, Run.kept]
  · simp [consRun, h]

/-- Of a deletion and an insertion one is not kept, so they can change places. -/
theorem IsSide.kept_comm {r s : Run} (hr : r.kind ≠ .context) (hs : s.kind ≠ .context)
    (hrs : r.kind ≠ s.kind) : r.kept keep ++ s.kept keep = s.kept keep ++ r.kept keep := by
  obtain ⟨k, ls⟩ := r
  obtain ⟨j, ms⟩ := s
  rcases hkeep.only with h | h <;> cases k <;> cases j <;> simp_all [Run.kept]

end side

/-! ## Sliding -/

theorem kind_slideUp (before : Script) (run : Run) (after : Script) :
    (slideUp before run after).run.kind = run.kind := by
  fun_induction slideUp before run after with
  | case1 => rfl
  | case2 run after r rs hr shared moved hpos ih => exact ih
  | case3 run after r rs hr shared hpos hnil ih => exact ih
  | case4 => rfl
  | case5 run after r rs hr hsame ih => exact ih
  | case6 run after r rs hr hsame ih => exact ih

theorem IsSide.side_slideUp {keep : LineKind → Bool} (hkeep : IsSide keep) (before : Script)
    {run : Run} (after : Script) (hrun : run.kind ≠ .context) :
    (slideUp before run after).toScript.side keep =
      Script.side keep before.reverse ++ (run.kept keep ++ after.side keep) := by
  fun_induction slideUp before run after with
  | case1 run after => simp [Focus.toScript]
  | case2 run after r rs hr shared moved hpos ih =>
    have hmoved : moved = run.lines.drop (run.lines.length - shared) := (drop_commonEnd _ _).symm
    have hr' : r.kept keep = r.lines.take (r.lines.length - shared) ++ moved := by
      rw [Run.kept, hr, if_pos hkeep.context]
      exact (List.take_append_drop _ _).symm
    have hrun' : Run.kept keep ⟨run.kind, moved ++ run.lines.take (run.lines.length - shared)⟩ ++
        moved = moved ++ run.kept keep := by
      unfold Run.kept
      split
      · rw [List.append_assoc, hmoved, List.take_append_drop]
      · rw [List.append_nil, List.nil_append]
    rw [ih hrun, side_reverse_consRun, hkeep.side_keepInFront, hkeep.kept_context,
      List.reverse_cons, Script.side_append, Script.side_cons, Script.side_nil,
      List.append_nil, hr']
    simp only [List.append_assoc]
    rw [← List.append_assoc _ moved, hrun', List.append_assoc]
  | case3 run after r rs hr shared hpos hnil ih =>
    rw [ih hrun]
    simp [Run.kept, hnil]
  | case4 run after r rs hr shared hpos hnil => simp [Focus.toScript]
  | case5 run after r rs hr hsame ih =>
    have hkept : Run.kept keep ⟨run.kind, r.lines ++ run.lines⟩ = r.kept keep ++ run.kept keep := by
      unfold Run.kept
      rw [hsame]
      split <;> rfl
    rw [ih hrun, hkept]
    simp
  | case6 run after r rs hr hsame ih =>
    rw [ih hrun, Script.side_cons, ← List.append_assoc (run.kept keep),
      ← hkeep.kept_comm hr hrun hsame]
    simp

theorem IsSide.side_slideDown {keep : LineKind → Bool} (hkeep : IsSide keep) (before : Script)
    {run : Run} (after : Script) (hrun : run.kind ≠ .context) :
    (slideDown before run after).toScript.side keep =
      Script.side keep before.reverse ++ (run.kept keep ++ after.side keep) := by
  fun_induction slideDown before run after with
  | case1 before run => simp [Focus.toScript]
  | case2 before run r rs hr shared moved hpos ih =>
    have hmoved : moved = run.lines.take shared := (take_commonStart _ _).symm
    have hr' : r.kept keep = moved ++ r.lines.drop shared := by
      rw [Run.kept, hr, if_pos hkeep.context]
      exact (List.take_append_drop _ _).symm
    have hrun' : moved ++ Run.kept keep ⟨run.kind, run.lines.drop shared ++ moved⟩ =
        run.kept keep ++ moved := by
      unfold Run.kept
      split
      · rw [← List.append_assoc, hmoved, List.take_append_drop]
      · rw [List.append_nil, List.nil_append]
    rw [ih hrun, hkeep.side_reverse_keepBehind, side_consRun, hkeep.kept_context,
      Script.side_cons, hr']
    simp only [List.append_assoc]
    rw [← List.append_assoc moved, hrun', List.append_assoc]
  | case3 before run r rs hr shared hpos hnil ih =>
    rw [ih hrun]
    simp [Run.kept, hnil]
  | case4 before run r rs hr shared hpos hnil => simp [Focus.toScript]
  | case5 before run r rs hr hsame ih =>
    have hkept : Run.kept keep ⟨run.kind, run.lines ++ r.lines⟩ = run.kept keep ++ r.kept keep := by
      unfold Run.kept
      rw [hsame]
      split <;> rfl
    rw [ih hrun, hkept]
    simp
  | case6 before run r rs hr hsame ih =>
    rw [ih hrun, List.reverse_cons, Script.side_append, Script.side_cons, Script.side_nil,
      List.append_nil, List.append_assoc, ← List.append_assoc (r.kept keep),
      hkeep.kept_comm hr hrun hsame]
    simp

theorem IsSide.side_slideAll {keep : LineKind → Bool} (hkeep : IsSide keep) {kind : LineKind}
    (hkind : kind ≠ .context) (steps : Nat) (before after : Script) :
    (slideAll kind steps before after).side keep = Script.side keep before.reverse ++
      after.side keep := by
  induction steps generalizing before after with
  | zero => simp [slideAll]
  | succ steps ih =>
    cases after with
    | nil => simp [slideAll]
    | cons r rs =>
      by_cases h : r.kind = kind
      · have hr : r.kind ≠ .context := h ▸ hkind
        have hup := hkeep.side_slideUp before rs hr
        have hdown := hkeep.side_slideDown (slideUp before r rs).before (slideUp before r rs).after
          (kind_slideUp before r rs ▸ hr : (slideUp before r rs).run.kind ≠ .context)
        simp only [Focus.toScript, Script.side_append, Script.side_cons] at hup hdown
        simp only [slideAll, if_pos h, ih, List.reverse_cons, Script.side_append, Script.side_cons,
          Script.side_nil, List.append_nil, List.append_assoc]
        rw [hdown, hup]
      · simp [slideAll, h, ih]

theorem IsSide.side_compact {keep : LineKind → Bool} (hkeep : IsSide keep) (s : Script) :
    (compact s).side keep = s.side keep := by
  simp [compact, hkeep.side_slideAll]

/-- A compacted script leads from and to the same lines. -/
theorem compact_leads {s : Script} {old new : List String} (h : s.Leads old new) :
    (compact s).Leads old new := by
  rw [Script.Leads, Script.oldSide_eq_side, Script.newSide_eq_side] at h ⊢
  rw [isSide_isOld.side_compact, isSide_isNew.side_compact]
  exact h

end Patchwork.Diff
