import Mathlib.Tactic.TypeStar
import Patchwork.Hunk.Placement

/-!
# Words and slices

A machine counts in words and takes slices of what it holds. Each operation here gives nothing where
a machine would have to stop: at a number that is too large for its word, a difference below zero,
or a slice that is out of bounds. A run that is made of them gives something only if every step of
it stays in range.
-/
namespace Patchwork.Word

/-! ## Numbers -/

/-- A number that has room in a word whose largest number is `limit`. -/
def upTo? (limit n : Nat) : Option Nat := if n ≤ limit then some n else none

def add? (m n : Nat) : Option Nat := upTo? maxNumber (m + n)

def sub? (m n : Nat) : Option Nat := if n ≤ m then some (m - n) else none

def signed? (n : Nat) : Option Int := (upTo? Hunk.maxShift n).map Int.ofNat

/-- The difference of two words with a sign, or the nearest number that such a word can hold. -/
def subSaturating (m n : Int) : Int := max (-Hunk.maxShift - 1) (min Hunk.maxShift (m - n))

theorem upTo?_of_le {limit n : Nat} (h : n ≤ limit) : upTo? limit n = some n := if_pos h

theorem add?_of_le {m n : Nat} (h : m + n ≤ maxNumber) : add? m n = some (m + n) := upTo?_of_le h

theorem sub?_of_le {m n : Nat} (h : n ≤ m) : sub? m n = some (m - n) := if_pos h

theorem signed?_of_le {n : Nat} (h : n ≤ Hunk.maxShift) : signed? n = some (n : Int) := by
  rw [signed?, upTo?_of_le h]
  rfl

/-- The distance of two words that have a sign and are not below zero needs no rounding. -/
theorem subSaturating_of_le {m n : Nat} (hm : m ≤ Hunk.maxShift) (hn : n ≤ Hunk.maxShift) :
    subSaturating m n = m - n := by
  unfold subSaturating
  omega

/-! ## Slices -/

def slice? {α : Type*} (l : List α) (start stop : Nat) : Option (List α) :=
  if start ≤ stop ∧ stop ≤ l.length then some (l.extract start stop) else none

example : slice? [0, 1, 2] 1 3 = some [1, 2] ∧ slice? [0, 1, 2] 1 4 = none ∧
  slice? [0, 1, 2] 1 0 = none := by decide

theorem slice?_of_le {α : Type*} {l : List α} {start stop : Nat} (h : start ≤ stop)
    (hstop : stop ≤ l.length) :
    slice? l start stop = some (l.extract start stop) := if_pos ⟨h, hstop⟩

/-- The characters behind the first `n` octets, none of which may be cut. -/
def behind? : Nat → List Char → Option (List Char)
  | 0, cs => some cs
  | _ + 1, [] => none
  | n + 1, c :: cs => if c.utf8Size ≤ n + 1 then behind? (n + 1 - c.utf8Size) cs else none

def textBehind? (n : Nat) (s : String) : Option String := (behind? n s.toList).map String.ofList

theorem behind?_append {front : List Char} (h : ∀ c ∈ front, c.utf8Size = 1) (rest : List Char) :
    behind? front.length (front ++ rest) = some rest := by
  induction front with
  | nil => rw [List.length_nil, List.nil_append, behind?]
  | cons c front ih =>
    obtain ⟨hc, h⟩ := List.forall_mem_cons.1 h
    rw [List.length_cons, List.cons_append, behind?, hc, if_pos (by omega),
      Nat.add_sub_cancel, ih h]

theorem textBehind?_of_toList {s : String} {front rest : List Char} (hs : s.toList = front ++ rest)
    (h : ∀ c ∈ front, c.utf8Size = 1) : textBehind? front.length s = some (String.ofList rest) := by
  rw [textBehind?, hs, behind?_append h]
  rfl

/-! ## Runs -/

/-- A run that succeeds or fails, or gives nothing because a step of it leaves its range. -/
abbrev Run (ε α : Type) := ExceptT ε Option α

namespace Run

variable {ε α β : Type}

def exactly (x : Except ε α) : Run ε α := ExceptT.mk (some x)

theorem pure_eq (a : α) : (pure a : Run ε α) = exactly (.ok a) := rfl

theorem liftM_eq (x : Except ε α) : (liftM x : Run ε α) = exactly x := rfl

theorem exactly_bind (x : Except ε α) (f : α → Except ε β) :
    exactly (x >>= f) = exactly x >>= fun a => exactly (f a) := by
  cases x <;> rfl

@[simp] theorem exactly_ok_bind (a : α) (f : α → Run ε β) : exactly (.ok a) >>= f = f a := rfl

@[simp] theorem liftM_some_bind (a : α) (f : α → Run ε β) :
    (liftM (some a) : Run ε α) >>= f = f a := rfl

@[simp] theorem liftM_ok_bind (a : α) (f : α → Run ε β) :
    (liftM (Except.ok a : Except ε α) : Run ε α) >>= f = f a :=
  rfl

/-- Goes on with what a run comes to, which may be needed to see that the rest comes to an end. -/
def bindOk (x : Run ε α) (f : (a : α) → x = exactly (.ok a) → Run ε β) : Run ε β :=
  match x with
  | none => ExceptT.mk none
  | some (.error e) => throw e
  | some (.ok a) => f a rfl

theorem bindOk_eq_bind (x : Run ε α) (f : α → Run ε β) : (bindOk x fun a _ => f a) = x >>= f := by
  match x with
  | none | some (.error e) | some (.ok a) => rfl

/-- A run that succeeds does so step by step. -/
theorem bind_eq_ok {x : Run ε α} {f : α → Run ε β} {b : β} (h : x >>= f = exactly (.ok b)) :
    ∃ a, x = exactly (.ok a) ∧ f a = exactly (.ok b) := by
  match x, h with
  | some (.ok a), h => exact ⟨a, rfl, h⟩

end Run

end Patchwork.Word
