import Patchwork.Diff.Compaction

/-!
# Hunks of a script

A script falls into changes with kept lines between them. Each change becomes a hunk together with
the kept lines next to it; changes that stand close to each other share a hunk.
-/
namespace Patchwork.Diff

/-- Lines that are replaced by others. -/
structure Change where
  deleted : List String
  inserted : List String
  deriving DecidableEq, Repr

namespace Change

def delete (lines : List String) (c : Change) : Change := { c with deleted := lines ++ c.deleted }

def insert (lines : List String) (c : Change) : Change := { c with inserted := lines ++ c.inserted }

def lines (c : Change) : List Line :=
  c.deleted.map (⟨.deletion, ·⟩) ++ c.inserted.map (⟨.insertion, ·⟩)

end Change

def contextLines (ls : List String) : List Line := ls.map (⟨.context, ·⟩)

abbrev Step := Change × List String

/-- A script as kept lines and steps after them. -/
structure Outline where
  start : List String
  steps : List Step

namespace Outline

/-- Extends the first change, if nothing is kept in front of it, or else starts a new one. -/
def onChange (f : Change → Change) (o : Outline) : Outline :=
  match o.start, o.steps with
  | [], (c, kept) :: steps => ⟨[], (f c, kept) :: steps⟩
  | start, steps => ⟨[], (f ⟨[], []⟩, start) :: steps⟩

def ofScript : Script → Outline
  | [] => ⟨[], []⟩
  | r :: rs =>
    let o := ofScript rs
    match r.kind with
    | .context => { o with start := r.lines ++ o.start }
    | .deletion => o.onChange (.delete r.lines)
    | .insertion => o.onChange (.insert r.lines)

end Outline

/-- Whether the next change joins the hunk of the one in front: if the kept lines between them are
fewer than two contexts, or no more than that when lines are added to the end of the text. -/
def joins (context : Nat) (kept : List String) : List Step → Bool
  | [] => false
  | (c, kept') :: steps =>
    if c.deleted = [] ∧ kept' = [] ∧ steps = [] then kept.length ≤ 2 * context
    else kept.length < 2 * context

def lastKept (context : Nat) (kept : List String) : List String :=
  kept.drop (kept.length - context)

def countOld (ls : List Line) : Nat := ls.countP (·.kind.isOld)

def countNew (ls : List Line) : Nat := ls.countP (·.kind.isNew)

/-- The first line of a range, where an empty range has the line in front of it. -/
def startOf (position length : Nat) : Nat := if length = 0 then position else position + 1

def hunkAt (old new : Nat) (leading : List String) (body : List Line) : Hunk :=
  let lines := contextLines leading ++ body
  let oldLength := countOld lines
  let newLength := countNew lines
  ⟨startOf (old - leading.length) oldLength, oldLength,
    startOf (new - leading.length) newLength, newLength, none, lines⟩

/-- The lines of the hunk that the first step belongs to, from that step on, and the hunks after it.
The step stands behind `old` and `new` lines. -/
def continueHunk (context old new : Nat) : List Step → List Line × List Hunk
  | [] => ([], [])
  | (c, kept) :: steps =>
    let old := old + c.deleted.length + kept.length
    let new := new + c.inserted.length + kept.length
    let (body, later) := continueHunk context old new steps
    if joins context kept steps then (c.lines ++ contextLines kept ++ body, later)
    else
      (c.lines ++ contextLines (kept.take context),
        if steps = [] then [] else hunkAt old new (lastKept context kept) body :: later)

/-- The hunks of a script, with up to `context` kept lines around each change. -/
def hunksOf (context : Nat) (s : Script) : List Hunk :=
  let o := Outline.ofScript s
  if o.steps = [] then []
  else
    let (body, later) := continueHunk context o.start.length o.start.length o.steps
    hunkAt o.start.length o.start.length (lastKept context o.start) body :: later

def hunks (context : Nat) (old new : String) : List Hunk :=
  hunksOf context (compact (search (Text.lines old) (Text.lines new)))

end Patchwork.Diff
