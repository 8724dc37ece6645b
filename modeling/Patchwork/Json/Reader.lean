import Patchwork.Json.Token

/-!
# Reading values that are wanted

A `Reader` takes a value of a known kind off the front of a text. What is wanted decides what is
read, so no document is ever built: a value of another kind is named and refused as soon as it is
seen. A record may be given field by field under their names, or as the list of its fields in their
order.
-/
namespace Patchwork.Json

abbrev Reader := StateT (List Char) (Except ReadError)

namespace Reader

variable {α δ : Type}

def fail (e : ReadError) : Reader α := fun _ => .error e

def lift (read : List Char → Except ReadError (α × List Char)) : Reader α := read

def peek : Reader (Option Char) := fun cs =>
  let cs := cs.dropWhile isSpace
  .ok (cs.head?, cs)

def skip : Reader Unit := fun cs => .ok ((), cs.drop 1)

def word (rest : List Char) : Reader Unit := fun cs => (readWord rest cs).map fun cs => ((), cs)

def number : Reader Number := fun cs =>
  match cs with
  | '-' :: cs => readNumber true cs
  | cs => readNumber false cs

/-- Reads a value of whatever kind, to tell what it is. -/
def found : Reader Found := do
  match ← peek with
  | none => fail .truncated
  | some 'n' => skip; word ['u', 'l', 'l']; return .null
  | some 't' => skip; word ['r', 'u', 'e']; return .boolean true
  | some 'f' => skip; word ['a', 'l', 's', 'e']; return .boolean false
  | some '"' => skip; return .text (String.ofList (← lift readString))
  | some '[' => return .list
  | some '\x7b' => return .record
  | some c => if c = '-' || c.isDigit then return .number (← number) else fail .malformed

def refuse (wanted : String) : Reader α := do
  fail (.data (.wrongKind (← found) wanted))

def text : Reader String := do
  if (← peek) = some '"' then
    skip
    return String.ofList (← lift readString)
  else refuse "a string"

def parsed (parse : String → Except String α) : Reader α := do
  match parse (← text) with
  | .ok a => return a
  | .error message => fail (.data (.refused message))

/-- Reads an integer from zero to `max`. -/
def natural (wanted : String) (max : Nat) : Reader Nat := do
  match ← found with
  | .number (.integer n) =>
    if 0 ≤ n && n ≤ max then return n.toNat
    else fail (.data (.outOfRange (.number (.integer n)) wanted))
  | other => fail (.data (.wrongKind other wanted))

def optional (value : Reader α) : Reader (Option α) := do
  if (← peek) = some 'n' then
    skip
    word ['u', 'l', 'l']
    return none
  else some <$> value

/-- Whether another element of a list follows, up to which it reads. -/
def hasElement (first : Bool) : Reader Bool := do
  match ← peek with
  | none => fail .truncated
  | some c =>
    if c = ']' then return false
    else if first then return true
    else if c = ',' then
      skip
      match ← peek with
      | none => fail .truncated
      | some d => if d = ']' then fail .malformed else return true
    else fail .malformed

/-- Reads the elements of a list, no more than `limit` of them. -/
def elements (value : Reader α) (first : Bool) : (limit : Nat) → Reader (List α)
  | 0 => fail .truncated
  | limit + 1 => do
    if ← hasElement first then
      let a ← value
      return a :: (← elements value false limit)
    else
      skip
      return []

/-- Reads a list. A text holds no more elements than characters. -/
def list (value : Reader α) : Reader (List α) := do
  if (← peek) = some '[' then
    skip
    elements value true ((← get).length + 1)
  else refuse "a sequence"

end Reader

/-! ## Records -/

/-- A field of a record that is being read, of which `δ` holds what is there so far. -/
structure Field (δ : Type) where
  name : String
  read : δ → Reader δ

structure Record (δ α : Type) where
  name : String
  fields : List (Field δ)
  start : δ
  /-- The record, or the name of the first field that it lacks. -/
  finish : δ → Except String α

namespace Record

variable {δ α : Type}

def takeField? (name : String) : List (Field δ) → Option (Field δ × List (Field δ))
  | [] => none
  | f :: fs =>
    if f.name = name then some (f, fs)
    else (takeField? name fs).map fun (g, gs) => (g, f :: gs)

theorem length_of_takeField? {name : String} {fs gs : List (Field δ)} {f : Field δ}
    (h : takeField? name fs = some (f, gs)) : gs.length < fs.length := by
  induction fs generalizing gs with
  | nil => simp [takeField?] at h
  | cons g fs ih =>
    unfold takeField? at h
    split at h
    · simp_all
    · obtain ⟨⟨_, gs'⟩, hgs, he⟩ := Option.map_eq_some_iff.1 h
      simp only [Prod.mk.injEq] at he
      obtain ⟨rfl, rfl⟩ := he
      simpa using ih hgs

/-- Whether another field follows, up to whose name it reads. -/
def hasMember (first : Bool) : Reader Bool := do
  let c ← Reader.peek
  if c = some '\x7d' then return false
  else
    let c ← if !first && c = some ',' then do
        Reader.skip
        Reader.peek
      else if !first && c.isSome then Reader.fail .malformed
      else pure c
    match c with
    | none => Reader.fail .truncated
    | some c => if c = '"' then return true else Reader.fail .malformed

def colon : Reader Unit := do
  match ← Reader.peek with
  | none => Reader.fail .truncated
  | some c => if c = ':' then Reader.skip else Reader.fail .malformed

/-- Reads fields under their names, each of which must be one that has not been read yet. -/
def members (r : Record δ α) (unread : List (Field δ)) (first : Bool) (draft : δ) : Reader δ := do
  if ← hasMember first then
    let name ← Reader.text
    match _h : takeField? name unread with
    | some (f, unread) =>
      colon
      r.members unread false (← f.read draft)
    | none =>
      let names := r.fields.map (·.name)
      Reader.fail (.data (if name ∈ names then .duplicateField name else .unknownField name names))
  else
    Reader.skip
    return draft
termination_by unread.length
decreasing_by exact length_of_takeField? _h

/-- Reads fields in their order, up to the end of the list or of the fields. -/
def positions (first : Bool) (draft : δ) : List (Field δ) → Reader δ
  | [] => pure draft
  | f :: fs => do
    if ← Reader.hasElement first then positions false (← f.read draft) fs
    else return draft

def endOfList : Reader Unit := do
  match ← Reader.peek with
  | none => Reader.fail .truncated
  | some c => if c = ']' then Reader.skip else Reader.fail .malformed

def read (r : Record δ α) : Reader α := do
  let wanted := "struct " ++ r.name
  match ← Reader.peek with
  | some '\x7b' =>
    Reader.skip
    match r.finish (← r.members r.fields true r.start) with
    | .ok a => return a
    | .error name => Reader.fail (.data (.missingField name))
  | some '[' =>
    Reader.skip
    match r.finish (← positions true r.start r.fields) with
    | .ok a =>
      endOfList
      return a
    | .error name =>
      let position := (r.fields.map (·.name)).idxOf name
      let count := toString r.fields.length
      Reader.fail (.data (.wrongLength position (wanted ++ " with " ++ count ++ " elements")))
  | _ => Reader.refuse wanted

end Record

def Reader.run {α : Type} (value : Reader α) (s : String) : Except ReadError α := do
  let (a, rest) ← value s.toList
  if (rest.dropWhile isSpace).isEmpty then .ok a else .error .malformed

end Patchwork.Json
