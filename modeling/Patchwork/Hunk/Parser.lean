import Patchwork.Hunk.Basic
import Patchwork.Patch.ParseError
import Patchwork.Text.CharClass

/-!
# Reading hunks

A header announces how many lines of each side its body holds, and exactly that many are read. A
marker after a body line takes the newline from that line. Blank lines between hunks are skipped.
-/
namespace Patchwork.Hunk

open Patch (ParseError ParseFault)

/-! ## Headers -/

/-- A run of decimal digits, of any script, and what follows it. -/
def digitRun? (cs : List Char) : Option (List Char × List Char) :=
  match cs.span Text.isDecimalDigit with
  | ([], _) => none
  | run => some run

def after? (expected cs : List Char) : Option (List Char) :=
  if expected.isPrefixOf cs then some (cs.drop expected.length) else none

/-- The digits of a range: a start and, after a comma, a length. -/
structure RangeDigits where
  start : List Char
  length : Option (List Char)

def rangeDigits? (cs : List Char) : Option (RangeDigits × List Char) := do
  let (start, rest) ← digitRun? cs
  match (after? [','] rest).bind digitRun? with
  | some (length, rest) => return (⟨start, some length⟩, rest)
  | none => return (⟨start, none⟩, rest)

structure HeaderParts where
  old : RangeDigits
  new : RangeDigits
  tail : List Char

def headerParts? (cs : List Char) : Option HeaderParts := do
  let (old, cs) ← rangeDigits? (← after? ['@', '@', ' ', '-'] cs)
  let (new, cs) ← rangeDigits? (← after? [' ', '+'] cs)
  return ⟨old, new, ← after? [' ', '@', '@'] cs⟩

/-- The number that digits stand for, if they are 0 to 9 and it is at most `maxNumber`. -/
def number? (digits : List Char) : Option Nat :=
  if digits.all Char.isDigit then
    let n := Nat.ofDigitChars 10 digits 0
    if n ≤ maxNumber then some n else none
  else none

/-- A length that is not written is one. -/
def RangeDigits.numbers? (r : RangeDigits) : Option (Nat × Nat) := do
  let start ← number? r.start
  let length ← match r.length with
    | none => some 1
    | some digits => number? digits
  return (start, length)

def heading? (tail : List Char) : Option String :=
  match tail with
  | [] => none
  | [' '] => none
  | ' ' :: cs => some (String.ofList cs)
  | cs => some (String.ofList cs)

/-- Reads a header line; the hunk has no body yet. -/
def readHeader (number : Nat) (line : String) : Except ParseError Hunk :=
  let content := Text.stripTerminator line
  match headerParts? content.toList with
  | none => .error ⟨number, .otherThanHunk content⟩
  | some parts =>
    match parts.old.numbers?, parts.new.numbers? with
    | some (oldStart, oldLength), some (newStart, newLength) =>
      .ok ⟨oldStart, oldLength, newStart, newLength, heading? parts.tail, []⟩
    | _, _ => .error ⟨number, .numberOutOfBounds⟩

/-! ## Bodies -/

def isMarker (line : String) : Bool := line.toList.head? == some '\\'

def isBlankLine (line : String) : Bool := line.toList.all Text.isBlank

def withNewline (text : String) : String := if Text.isTerminated text then text else text ++ "\n"

/-- Reads a line of a body. An empty line is an empty context line whose space was lost. -/
def bodyLine? (line : String) : Option Line :=
  match line.toList with
  | ' ' :: cs => some ⟨.context, withNewline (String.ofList cs)⟩
  | '-' :: cs => some ⟨.deletion, withNewline (String.ofList cs)⟩
  | '+' :: cs => some ⟨.insertion, withNewline (String.ofList cs)⟩
  | '\n' :: _ => some ⟨.context, withNewline line⟩
  | '\r' :: _ => some ⟨.context, withNewline line⟩
  | _ => none

/-- The lines of a body, the rest of the text, and the number of the first line there. -/
structure Body where
  lines : List Line
  next : Nat
  rest : List String

/-- A line takes the marker that follows it, and loses its newline with it. -/
def takeMarker (line : Line) (number : Nat) (rest : List String) : Line × Nat × List String :=
  match rest with
  | m :: rest' =>
    if isMarker m then (⟨line.kind, Text.dropNewline line.text⟩, number + 1, rest')
    else (line, number, rest)
  | [] => (line, number, rest)

theorem takeMarker_length (line : Line) (number : Nat) (rest : List String) :
    (takeMarker line number rest).2.2.length ≤ rest.length := by
  unfold takeMarker
  split
  · split <;> simp
  · simp

/-- Reads lines until `old` lines of the old side and `new` lines of the new side are found. The
header stands on line `header`, the next line is `number`. -/
def readBody (header number old new : Nat) (rest : List String) :
    Except ParseError { b : Body // b.rest.length ≤ rest.length } :=
  if old = 0 ∧ new = 0 then .ok ⟨⟨[], number, rest⟩, Nat.le_refl _⟩
  else
    match rest with
    | [] => .error ⟨header, .bodyCutShort⟩
    | l :: ls =>
      if isMarker l then .error ⟨number, .strayMarker⟩
      else
        match bodyLine? l with
        | none => .error ⟨number, .otherThanBodyLine (Text.stripTerminator l)⟩
        | some line =>
          if (line.kind.isOld ∧ old = 0) ∨ (line.kind.isNew ∧ new = 0) then
            .error ⟨number, .bodyTooLong⟩
          else
            let taken := takeMarker line (number + 1) ls
            have h := takeMarker_length line (number + 1) ls
            match readBody header taken.2.1 (old - line.kind.isOld.toNat)
                (new - line.kind.isNew.toNat) taken.2.2 with
            | .error e => .error e
            | .ok ⟨b, hb⟩ =>
              .ok ⟨{ b with lines := taken.1 :: b.lines },
                Nat.le_succ_of_le (Nat.le_trans hb h)⟩
termination_by rest.length
decreasing_by simp; omega

/-- Reads the body of a hunk. It cannot begin with a marker, even when it holds no lines. -/
def readWholeBody (header : Nat) (h : Hunk) (rest : List String) :
    Except ParseError { b : Body // b.rest.length ≤ rest.length } :=
  if rest.head?.any isMarker then .error ⟨header + 1, .strayMarker⟩
  else readBody header (header + 1) h.oldLength h.newLength rest

def readHunks (number : Nat) (lines : List String) : Except ParseError (List Hunk) :=
  match lines with
  | [] => .ok []
  | l :: ls =>
    if isBlankLine l then readHunks (number + 1) ls
    else
      match readHeader number l with
      | .error e => .error e
      | .ok h =>
        match readWholeBody number h ls with
        | .error e => .error e
        | .ok ⟨b, _⟩ =>
          match readHunks b.next b.rest with
          | .error e => .error e
          | .ok hs => .ok ({ h with lines := b.lines } :: hs)
termination_by lines.length
decreasing_by all_goals simp; try omega

end Patchwork.Hunk
