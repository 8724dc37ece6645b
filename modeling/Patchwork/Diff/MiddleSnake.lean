/-!
# Middle snakes

Two searches walk the edit grid, one from its start and one from its end, and note for each diagonal
how far they can get with a growing number of edits. Where they meet, a shortest edit path passes,
and the diff can be split in two.
-/
namespace Patchwork.Diff

variable {α : Type} [DecidableEq α]

def commonFrom (old new : Array α) (x y : Nat) : Nat :=
  if h : x < old.size ∧ y < new.size then
    if old[x] = new[y] then commonFrom old new (x + 1) (y + 1) + 1 else 0
  else 0
termination_by old.size - x

/-- The furthest old position reached on each diagonal, 0 where none is. -/
structure Frontier where
  reach : Array Nat
  /-- The number of diagonals below the main one. -/
  below : Nat

namespace Frontier

def start (below : Nat) : Frontier := ⟨Array.replicate (2 * below + 1) 0, below⟩

def get (v : Frontier) (k : Int) : Nat := v.reach.getD (k + v.below).toNat 0

def set (v : Frontier) (k : Int) (x : Nat) : Frontier :=
  { v with reach := v.reach.setIfInBounds (k + v.below).toNat x }

/-- The old position on diagonal `k` after one more edit, taken from the better neighbour. -/
def step (v : Frontier) (d k : Int) : Nat :=
  if k = -d ∨ (k ≠ d ∧ v.get (k - 1) < v.get (k + 1)) then v.get (k + 1) else v.get (k - 1) + 1

end Frontier

structure Point where
  x : Nat
  y : Nat
  deriving DecidableEq, Repr

def diagonals (d : Nat) : List Int :=
  (List.range (d + 1)).map fun i : Nat => (d : Int) - 2 * (i : Int)

/-- One more edit on every diagonal. Stops with the start of the first snake that `meets` accepts,
which is asked about the diagonal, its new end, and that start. -/
def sweep (old new : Array α) (d : Nat) (meets : Frontier → Int → Point → Option Point) :
    List Int → Frontier → Except Point Frontier
  | [], v => .ok v
  | k :: ks, v =>
    let x := v.step d k
    let y := (x - k).toNat
    let v := v.set k (x + commonFrom old new x y)
    match meets v k ⟨x, y⟩ with
    | some p => .error p
    | none => sweep old new d meets ks v

/-- Both searches, with `d` edits and up to `rounds` more. The lists of the second search are those
of the first, reversed. -/
def searchSnake (old new oldReversed newReversed : Array α) (d : Nat) :
    Nat → Frontier → Frontier → Option Point
  | 0, _, _ => none
  | rounds + 1, forward, backward =>
    let n := old.size
    let m := new.size
    let delta : Int := (n : Int) - m
    let meetsBackward := fun (v : Frontier) (k : Int) (p : Point) =>
      if delta % 2 = 1 ∧ (k - delta).natAbs < d ∧ n ≤ v.get k + backward.get (delta - k) then some p
      else none
    match sweep old new d meetsBackward (diagonals d) forward with
    | .error p => some p
    | .ok forward =>
      let meetsForward := fun (v : Frontier) (k : Int) (_ : Point) =>
        if delta % 2 = 0 ∧ (k - delta).natAbs ≤ d ∧ n ≤ v.get k + forward.get (delta - k) then
          some ⟨n - v.get k, (m - (v.get k - k)).toNat⟩
        else none
      match sweep oldReversed newReversed d meetsForward (diagonals d) backward with
      | .error p => some p
      | .ok backward =>
        searchSnake old new oldReversed newReversed (d + 1) rounds forward backward

/-- A point on a shortest edit path between two lists without a common start or end. -/
def middleSnake (old new : List α) : Option Point :=
  let rounds := (old.length + new.length + 1) / 2 + 1
  searchSnake old.toArray new.toArray old.reverse.toArray new.reverse.toArray 0 rounds
    (.start (rounds + 1)) (.start (rounds + 1))

end Patchwork.Diff
