import Patchwork.Diff.MiddleSnake
import Patchwork.Diff.Script

/-!
# Searching for a shortest script

What both lists have in common at their start and at their end is kept. Between that the lists are
split at a middle snake, and both parts are searched in the same way. Whatever the split, the script
leads from the old lines to the new ones (`search_leads`).
-/
namespace Patchwork.Diff

def commonStart : List String → List String → Nat
  | a :: as, b :: bs => if a = b then commonStart as bs + 1 else 0
  | _, _ => 0

theorem take_commonStart (as bs : List String) :
    as.take (commonStart as bs) = bs.take (commonStart as bs) := by
  induction as generalizing bs with
  | nil => simp [commonStart]
  | cons a as ih =>
    cases bs with
    | nil => simp [commonStart]
    | cons b bs =>
      by_cases h : a = b
      · simp [commonStart, h, ih]
      · simp [commonStart, h]

theorem commonStart_le_left (as bs : List String) : commonStart as bs ≤ as.length := by
  induction as generalizing bs with
  | nil => simp [commonStart]
  | cons a as ih =>
    cases bs with
    | nil => simp [commonStart]
    | cons b bs =>
      have := ih bs
      by_cases h : a = b <;> simp [commonStart, h]; omega

theorem commonStart_comm (as bs : List String) : commonStart as bs = commonStart bs as := by
  induction as generalizing bs with
  | nil => cases bs <;> rfl
  | cons a as ih =>
    cases bs with
    | nil => rfl
    | cons b bs =>
      by_cases h : a = b
      · simp [commonStart, h, ih]
      · simp [commonStart, h, Ne.symm h]

theorem commonStart_le_right (as bs : List String) : commonStart as bs ≤ bs.length :=
  commonStart_comm as bs ▸ commonStart_le_left bs as

def commonEnd (as bs : List String) : Nat := commonStart as.reverse bs.reverse

theorem commonEnd_le_right (as bs : List String) : commonEnd as bs ≤ bs.length := by
  simpa [commonEnd] using commonStart_le_right as.reverse bs.reverse

theorem drop_commonEnd (as bs : List String) :
    as.drop (as.length - commonEnd as bs) = bs.drop (bs.length - commonEnd as bs) := by
  have h := take_commonStart as.reverse bs.reverse
  rw [List.take_reverse, List.take_reverse] at h
  exact List.reverse_inj.1 h

/-- Two lists less what they have in common at their ends, with `inner` for the rest. -/
def trimmed (old new : List String) (inner : List String → List String → Script) : Script :=
  let start := commonStart old new
  let old' := old.drop start
  let new' := new.drop start
  let stop := commonEnd old' new'
  Script.run .context (old.take start) ++
    (inner (old'.take (old'.length - stop)) (new'.take (new'.length - stop)) ++
      Script.run .context (old'.drop (old'.length - stop)))

theorem trimmed_leads {old new : List String} {inner : List String → List String → Script}
    (h : ∀ o n, (inner o n).Leads o n) : (trimmed old new inner).Leads old new := by
  let start := commonStart old new
  let stop := commonEnd (old.drop start) (new.drop start)
  let old' := old.drop start
  let new' := new.drop start
  have first := Script.run_leads .context (old.take start)
  have last := Script.run_leads .context (old'.drop (old'.length - stop))
  have inside := h (old'.take (old'.length - stop)) (new'.take (new'.length - stop))
  have whole := first.append (inside.append last)
  refine ⟨whole.1.trans ?_, whole.2.trans ?_⟩
  · show old.take start ++ (old'.take _ ++ old'.drop _) = old
    rw [List.take_append_drop, List.take_append_drop]
  · show old.take start ++ (new'.take _ ++ old'.drop _) = new
    rw [drop_commonEnd, List.take_append_drop, take_commonStart, List.take_append_drop]

def replaceAll (old new : List String) : Script :=
  Script.run .deletion old ++ Script.run .insertion new

theorem replaceAll_leads (old new : List String) : (replaceAll old new).Leads old new := by
  have h := (Script.run_leads .deletion old).append (Script.run_leads .insertion new)
  exact ⟨h.1.trans (List.append_nil old), h.2⟩

/-- Both parts of a split at a middle snake, if there is something to split. -/
def splitSearch (inner : List String → List String → Script) (old new : List String) : Script :=
  if old = [] ∨ new = [] then replaceAll old new
  else
    match middleSnake old new with
    | none => replaceAll old new
    | some p =>
      inner (old.take p.x) (new.take p.y) ++ inner (old.drop p.x) (new.drop p.y)

theorem splitSearch_leads {inner : List String → List String → Script}
    (h : ∀ o n, (inner o n).Leads o n) (old new : List String) :
    (splitSearch inner old new).Leads old new := by
  unfold splitSearch
  split
  · exact replaceAll_leads old new
  · split
    · exact replaceAll_leads old new
    · rename_i p _
      have h := (h (old.take p.x) (new.take p.y)).append (h (old.drop p.x) (new.drop p.y))
      rwa [List.take_append_drop, List.take_append_drop] at h

def searchWithin : Nat → List String → List String → Script
  | 0, old, new => trimmed old new replaceAll
  | splits + 1, old, new => trimmed old new (splitSearch (searchWithin splits))

theorem searchWithin_leads (splits : Nat) (old new : List String) :
    (searchWithin splits old new).Leads old new := by
  induction splits generalizing old new with
  | zero => exact trimmed_leads replaceAll_leads
  | succ splits ih => exact trimmed_leads (splitSearch_leads ih)

/-- A shortest script between two lists. Each split leaves less on both sides, so the number of
lines bounds how deep splits nest. -/
def search (old new : List String) : Script := searchWithin (old.length + new.length) old new

theorem search_leads (old new : List String) : (search old new).Leads old new :=
  searchWithin_leads _ old new

end Patchwork.Diff
