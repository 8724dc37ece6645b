import Patchwork.Json.Error

/-!
# Strings and numbers of a document

Each function takes the characters that are left and returns what it has read with the characters
after it.
-/
namespace Patchwork.Json

def isSpace (c : Char) : Bool := c = ' ' || c = '\n' || c = '\t' || c = '\r'

/-- The error where something else should follow: the end, or a character that does not belong
there. -/
def unexpected (rest : List Char) : ReadError := if rest.isEmpty then .truncated else .malformed

def readWord : List Char → List Char → Except ReadError (List Char)
  | [], cs => .ok cs
  | _ :: _, [] => .error .truncated
  | c :: word, d :: cs => if c = d then readWord word cs else .error .malformed

/-! ## Strings -/

def hexValue? (c : Char) : Option Nat :=
  if c.isDigit then some (c.toNat - '0'.toNat)
  else if 'a' ≤ c ∧ c ≤ 'f' then some (c.toNat - 'a'.toNat + 10)
  else if 'A' ≤ c ∧ c ≤ 'F' then some (c.toNat - 'A'.toNat + 10)
  else none

/-- The number that four hexadecimal digits stand for. The text must have four octets left. -/
def readHex (cs : List Char) : Except ReadError Nat :=
  if (cs.take 4).foldl (fun n c => n + c.utf8Size) 0 < 4 then .error .truncated
  else
    match (cs.take 4).mapM hexValue? with
    | some digits => .ok (digits.foldl (fun n digit => n * 16 + digit) 0)
    | none => .error .malformed

/-- The character that follows `\u`, and how many characters its number takes. Beyond U+FFFF a
character is given by two numbers. -/
def readNumbered (cs : List Char) : Except ReadError (Char × Nat) := do
  let high ← readHex cs
  if high < 0xd800 || 0xdfff < high then return (Char.ofNat high, 4)
  else if 0xdc00 ≤ high then .error .malformed
  else
    match cs.drop 4 with
    | '\\' :: 'u' :: rest =>
      let low ← readHex rest
      if low < 0xdc00 || 0xdfff < low then .error .malformed
      else return (Char.ofNat (0x10000 + (high - 0xd800) * 0x400 + (low - 0xdc00)), 10)
    | '\\' :: [] => .error .truncated
    | rest => .error (unexpected rest)

/-- The character that follows a backslash, and how many characters stand for it. -/
def readEscape : List Char → Except ReadError (Char × Nat)
  | [] => .error .truncated
  | c :: cs =>
    match c with
    | '"' => .ok ('"', 1)
    | '\\' => .ok ('\\', 1)
    | '/' => .ok ('/', 1)
    | 'b' => .ok ('\x08', 1)
    | 'f' => .ok ('\x0c', 1)
    | 'n' => .ok ('\n', 1)
    | 'r' => .ok ('\r', 1)
    | 't' => .ok ('\t', 1)
    | 'u' => (readNumbered cs).map fun (c, n) => (c, n + 1)
    | _ => .error .malformed

def readString (cs : List Char) : Except ReadError (List Char × List Char) :=
  match cs with
  | [] => .error .truncated
  | c :: cs =>
    if c = '"' then .ok ([], cs)
    else if c = '\\' then
      match readEscape cs with
      | .error e => .error e
      | .ok (d, n) => (readString (cs.drop n)).map fun (s, rest) => (d :: s, rest)
    else if c.toNat < 0x20 then .error .malformed
    else (readString cs).map fun (s, rest) => (c :: s, rest)
termination_by cs.length
decreasing_by all_goals (simp only [List.length_cons, List.length_drop]; omega)

/-! ## Numbers -/

def maxInteger : Nat := UInt64.size - 1

/-- Appends digits to a number as long as it stays in range. Digits that are left out are
counted. -/
def appendDigits (n : Nat) : List Char → Nat × Nat
  | [] => (n, 0)
  | c :: cs =>
    let next := n * 10 + (c.toNat - '0'.toNat)
    if maxInteger < next then (n, (c :: cs).length) else appendDigits next cs

/-- Divides by a power of ten, by no more than `10 ^ 308` at a time. -/
def divideByTens (x : Float) (k : Nat) : Float :=
  if k ≤ 308 then x / Float.ofScientific 1 false k
  else if x == 0.0 then x
  else divideByTens (x / Float.ofScientific 1 false 308) (k - 308)
termination_by k
decreasing_by omega

/-- The double for a significand and an exponent to base ten, if there is one. -/
def floatOfParts? (significand : Nat) (exponent : Int) : Option Float :=
  let x := significand.toUInt64.toFloat
  if exponent < 0 then some (divideByTens x (-exponent).toNat)
  else if exponent ≤ 308 then
    let y := x * Float.ofScientific 1 false exponent.toNat
    if y.isInf then none else some y
  else if significand = 0 then some x
  else none

/-- The value of a number that is not written as an integer in range. An exponent too large to be
counted gives zero or nothing. -/
def floatOfDigits? (significand : Nat) (exponent : Int) (shift : Option (Bool × List Char)) :
    Option Float :=
  match shift with
  | none => floatOfParts? significand exponent
  | some (negative, digits) =>
    let n := digits.foldl (fun n c => n * 10 + (c.toNat - '0'.toNat)) 0
    if n < UInt32.size / 2 then floatOfParts? significand
      (if negative then exponent - n else exponent + n)
    else if significand = 0 || negative then some 0.0
    else none

/-- Splits digits off. There must be one. -/
def readDigits (cs : List Char) : Except ReadError (List Char × List Char) :=
  match cs.takeWhile Char.isDigit, cs.dropWhile Char.isDigit with
  | [], rest => .error (unexpected rest)
  | digits, rest => .ok (digits, rest)

def readFraction : List Char → Except ReadError (Option (List Char) × List Char)
  | '.' :: cs => (readDigits cs).map fun (digits, rest) => (some digits, rest)
  | cs => .ok (none, cs)

/-- Reads the exponent of a number, if it has one: whether it is negative, and its digits. -/
def readExponent : List Char → Except ReadError (Option (Bool × List Char) × List Char)
  | c :: cs =>
    if c = 'e' || c = 'E' then
      let (negative, cs) := match cs with
        | '-' :: cs => (true, cs)
        | '+' :: cs => (false, cs)
        | cs => (false, cs)
      (readDigits cs).map fun (digits, rest) => (some (negative, digits), rest)
    else .ok (none, c :: cs)
  | [] => .ok (none, [])

/-- Reads a number after its sign. A leading zero stands alone in front of the point. -/
def readNumber (negative : Bool) (cs : List Char) : Except ReadError (Number × List Char) := do
  let (digits, rest) ← readDigits cs
  if digits.head? = some '0' && digits.length ≠ 1 then .error .malformed
  else
    let (fraction, rest) ← readFraction rest
    let (shift, rest) ← readExponent rest
    let (whole, dropped) := appendDigits 0 digits
    let sign := fun x : Float => if negative then -x else x
    if fraction.isNone && shift.isNone && dropped = 0 then
      if !negative then return (.integer whole, rest)
      else if whole = 0 || UInt64.size / 2 <
        whole then return (.floating (-whole.toUInt64.toFloat), rest)
      else return (.integer (-whole), rest)
    else
      let fraction := fraction.getD []
      let (significand, ignored) := appendDigits whole fraction
      match floatOfDigits? significand (dropped + ignored - fraction.length) shift with
      | some x => return (.floating (sign x), rest)
      | none => .error .malformed

end Patchwork.Json
