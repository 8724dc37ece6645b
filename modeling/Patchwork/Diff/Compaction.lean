import Patchwork.Diff.Search

/-!
# Compacting scripts

A deletion or insertion next to kept lines can slide over them where its own last lines, or first
ones, are those of the kept run. Every such run is slid up as far as it goes and then down as far as
it goes, and runs of one kind that meet are joined. What a script leads from and to stays the same.
-/
namespace Patchwork.Diff

/-- A script with a place in it: the runs in front, the last one first, the run at the place, and
the runs after it. -/
structure Focus where
  before : Script
  run : Run
  after : Script

namespace Focus

def toScript (f : Focus) : Script := f.before.reverse ++ f.run :: f.after

end Focus

/-- Puts kept lines in front of a script, in its first run if that one is kept too. -/
def keepInFront (lines : List String) : Script → Script
  | [] => [⟨.context, lines⟩]
  | r :: rs =>
    if r.kind = .context then ⟨.context, lines ++ r.lines⟩ :: rs
    else ⟨.context, lines⟩ :: r :: rs

/-- Puts kept lines behind a reversed script, in its nearest run if that one is kept too. -/
def keepBehind (lines : List String) : Script → Script
  | [] => [⟨.context, lines⟩]
  | r :: rs =>
    if r.kind = .context then ⟨.context, r.lines ++ lines⟩ :: rs
    else ⟨.context, lines⟩ :: r :: rs

def weight (s : Script) : Nat := s.foldr (fun r n => r.lines.length + 1 + n) 0

def consRun (r : Run) (s : Script) : Script := if r.lines = [] then s else r :: s

theorem weight_consRun_le (r : Run) (s : Script) :
    weight (consRun r s) ≤ r.lines.length + weight s + 1 := by
  unfold consRun
  split <;> simp only [weight, List.foldr_cons] <;> omega

/-- Slides a run up: over kept lines that end like it, past a run of the other kind, and into a run
of its own kind. -/
def slideUp (before : Script) (run : Run) (after : Script) : Focus :=
  match before with
  | [] => ⟨[], run, after⟩
  | r :: rs =>
    if r.kind = .context then
      let shared := commonEnd run.lines r.lines
      let moved := r.lines.drop (r.lines.length - shared)
      if 0 < shared then
        slideUp (consRun ⟨.context, r.lines.take (r.lines.length - shared)⟩ rs)
          ⟨run.kind, moved ++ run.lines.take (run.lines.length - shared)⟩
          (keepInFront moved after)
      else if r.lines = [] then slideUp rs run after
      else ⟨r :: rs, run, after⟩
    else if r.kind = run.kind then slideUp rs ⟨run.kind, r.lines ++ run.lines⟩ after
    else slideUp rs run (r :: after)
termination_by weight before
decreasing_by
  · rename_i h
    have _h : 0 < commonEnd run.lines r.lines := h
    have h' := commonEnd_le_right run.lines r.lines
    have := weight_consRun_le
      ⟨.context, r.lines.take (r.lines.length - commonEnd run.lines r.lines)⟩ rs
    simp only [List.length_take, weight, List.foldr_cons] at this ⊢
    omega
  all_goals simp only [weight, List.foldr_cons]; omega

def slideDown (before : Script) (run : Run) (after : Script) : Focus :=
  match after with
  | [] => ⟨before, run, []⟩
  | r :: rs =>
    if r.kind = .context then
      let shared := commonStart run.lines r.lines
      let moved := r.lines.take shared
      if 0 < shared then
        slideDown (keepBehind moved before) ⟨run.kind, run.lines.drop shared ++ moved⟩
          (consRun ⟨.context, r.lines.drop shared⟩ rs)
      else if r.lines = [] then slideDown before run rs
      else ⟨before, run, r :: rs⟩
    else if r.kind = run.kind then slideDown before ⟨run.kind, run.lines ++ r.lines⟩ rs
    else slideDown (r :: before) run rs
termination_by weight after
decreasing_by
  · rename_i h
    have _h : 0 < commonStart run.lines r.lines := h
    have h' := commonStart_le_right run.lines r.lines
    have := weight_consRun_le ⟨.context, r.lines.drop (commonStart run.lines r.lines)⟩ rs
    simp only [List.length_drop, weight, List.foldr_cons] at this ⊢
    omega
  all_goals simp only [weight, List.foldr_cons]; omega

/-- Slides the runs of one kind, from the first to the last, in up to `steps` steps. -/
def slideAll (kind : LineKind) : Nat → Script → Script → Script
  | 0, before, after => before.reverse ++ after
  | _ + 1, before, [] => before.reverse
  | steps + 1, before, r :: rs =>
    if r.kind = kind then
      let up := slideUp before r rs
      let down := slideDown up.before up.run up.after
      slideAll kind steps (down.run :: down.before) down.after
    else slideAll kind steps (r :: before) rs

/-- Slides the deletions, then the insertions. Sliding leaves no more runs behind the place than
there were, so the weight of the script bounds the steps. -/
def compact (s : Script) : Script :=
  let s := slideAll .deletion (2 * weight s + 1) [] s
  slideAll .insertion (2 * weight s + 1) [] s

end Patchwork.Diff
