import Patchwork.Hunk.Basic

/-!
# Placing hunks in a text

The old lines of a hunk must stand in the text as they are. A hunk is tried first where its header
says, moved by as much as the hunk in front of it was moved, and then at the nearest place that does
not reach into the block of that hunk. Placing gives one position per hunk, splicing puts the new
lines there.
-/
namespace Patchwork.Hunk

structure Conflict where
  /-- How many hunks of the patch stand in front of it. -/
  index : Nat
  header : String
  /-- The line where it should have begun, counted from 1. -/
  expectedLine : Nat
  body : String
  deriving DecidableEq, Repr

def Conflict.message (c : Conflict) : String :=
  "hunk #" ++ toString (c.index + 1) ++ " `" ++ c.header ++ "` does not apply at line " ++
    toString c.expectedLine

def conflict (index : Nat) (h : Hunk) (expected : Nat) : Conflict :=
  ⟨index, h.header, min (expected + 1) maxNumber, h.plainBody⟩

def occursAt (lines block : List String) (position : Nat) : Bool :=
  block.isPrefixOf (lines.drop position)

/-- The positions from `floor` to `last`, the nearest to `expected` first, and of two that are
equally near the later one first. -/
def candidates (expected floor last : Nat) : List Nat :=
  (List.range (max (expected - floor) (last - expected) + 1)).flatMap fun distance =>
    (if expected + distance ≤ last then [expected + distance] else []) ++
    (if 0 < distance ∧ floor + distance ≤ expected then [expected - distance] else [])

/-- Where a block stands in the lines from `floor` on, looking first near `expected`. The empty
block stands nowhere but at the expected position. -/
def locate (lines block : List String) (expected floor : Nat) : Option Nat :=
  if lines.length < floor + block.length then none
  else if block = [] then
    if expected ≤ lines.length then some expected else none
  else
    let last := lines.length - block.length
    (candidates (min expected last) floor last).find? (occursAt lines block)

/-- The largest distance that a placement can be moved by. -/
def maxShift : Nat := UInt64.size / 2 - 1

def shifted (declared : Nat) (shift : Int) : Nat := min (declared + shift).toNat maxNumber

/-- The positions of the hunks in the lines. The lines in front of `cursor` are taken, and the hunk
in front was moved by `shift`. -/
def place (lines : List String) (cursor : Nat) (shift : Int) (index : Nat) :
    List Hunk → Except Conflict (List Nat)
  | [] => .ok []
  | h :: hs =>
    let expected := max (shifted h.oldIndex shift) cursor
    match locate lines h.oldLines expected cursor with
    | none => .error (conflict index h expected)
    | some position =>
      match place lines (position + h.oldLines.length) (position - min h.oldIndex maxShift)
          (index + 1) hs with
      | .error c => .error c
      | .ok positions => .ok (position :: positions)

/-- The lines from `cursor` on, with the new lines of each hunk in place of its old ones. -/
def splice (lines : List String) (cursor : Nat) : List (Nat × Hunk) → List String
  | [] => lines.drop cursor
  | (position, h) :: rest =>
    (lines.drop cursor).take (position - cursor) ++ h.newLines ++
      splice lines (position + h.oldLines.length) rest

def applyLines (lines : List String) (hunks : List Hunk) : Except Conflict (List String) :=
  match place lines 0 0 0 hunks with
  | .error c => .error c
  | .ok positions => .ok (splice lines 0 (positions.zip hunks))

def applyAll (text : String) (hunks : List Hunk) : Except Conflict String :=
  match applyLines (Text.lines text) hunks with
  | .error c => .error c
  | .ok lines => .ok (Text.join lines)

end Patchwork.Hunk
