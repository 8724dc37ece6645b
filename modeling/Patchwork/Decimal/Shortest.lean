/-!
# The shortest decimal that reads back

Every real number near a double rounds to it. Among the decimals in this neighbourhood, the ones
with the fewest digits are sought, and of these the one nearest to the double. All arithmetic is
exact.
-/
namespace Patchwork.Decimal

/-- The numbers that round to a double: those from `low / den` to `high / den`, where the double
itself is `value / den`. -/
structure Neighbourhood where
  low : Nat
  value : Nat
  high : Nat
  den : Nat
  /-- Whether the ends round to the double too. -/
  closed : Bool

def significandAndExponent (bits : UInt64) : Nat × Int :=
  let fraction := bits.toNat % Nat.pow 2 52
  let exponent := bits.toNat / Nat.pow 2 52 % Nat.pow 2 11
  if exponent = 0 then (fraction, -1074) else (fraction + Nat.pow 2 52, Int.ofNat exponent - 1075)

/-- The neighbourhood of `m * 2 ^ q`. The next smaller double is only half as far away as the next
larger one if `m` is the least significand. -/
def Neighbourhood.ofSignificand (m : Nat) (q : Int) : Neighbourhood :=
  let below := if m = Nat.pow 2 52 && q ≠ -1074 then 1 else 2
  let unit := Nat.pow 2 (q - 2).toNat
  ⟨(4 * m - below) * unit, 4 * m * unit, (4 * m + 2) * unit, Nat.pow 2 (2 - q).toNat, m % 2 = 0⟩

namespace Neighbourhood

def holds (n : Neighbourhood) (g : Int) (d : Nat) : Bool :=
  let point := d * Nat.pow 10 g.toNat * n.den
  let low := n.low * Nat.pow 10 (-g).toNat
  let high := n.high * Nat.pow 10 (-g).toNat
  if n.closed then low ≤ point && point ≤ high else low < point && point < high

/-- How far `d * 10 ^ g` is from the double, in a unit that depends on `g` alone. -/
def distance (n : Neighbourhood) (g : Int) (d : Nat) : Nat :=
  let point := d * Nat.pow 10 g.toNat * n.den
  let value := n.value * Nat.pow 10 (-g).toNat
  if point < value then value - point else point - value

/-- The multiple of `10 ^ g` that rounds to the double and is nearest to it, if there is one. -/
def onGrid (n : Neighbourhood) (g : Int) : Option Nat :=
  let d := n.value * Nat.pow 10 (-g).toNat / (n.den * Nat.pow 10 g.toNat)
  match n.holds g d, n.holds g (d + 1) with
  | true, true =>
    let here := n.distance g d
    let next := n.distance g (d + 1)
    if here < next || (here = next && d % 2 = 0) then some d else some (d + 1)
  | true, false => some d
  | false, true => some (d + 1)
  | false, false => none

/-- The position of the first digit of the double, counted from the point. -/
def leading (n : Neighbourhood) : Int :=
  if n.den ≤ n.value then (Nat.toDigits 10 (n.value / n.den)).length - 1
  else
    match (List.range 400).find? fun j => n.den ≤ n.value * Nat.pow 10 j with
    | some j => -j
    | none => 0

/-- The shortest decimal `d * 10 ^ g` in the neighbourhood. Seventeen digits always suffice. -/
def shortest (n : Neighbourhood) : Nat × Int :=
  ((List.range 17).findSome? fun k =>
    let g := n.leading - Int.ofNat k
    (n.onGrid g).map (·, g)).getD (0, 0)

end Neighbourhood

/-- Digits without zeros at the end, and the position of the first one, counted from the point. -/
structure Digits where
  digits : List Char
  leading : Int
  deriving DecidableEq, Repr

def Digits.ofNat (d : Nat) (g : Int) : Digits :=
  let all := Nat.toDigits 10 d
  ⟨(all.reverse.dropWhile (· = '0')).reverse, g + all.length - 1⟩

def shortestDigits (x : Float) : Digits :=
  let (m, q) := significandAndExponent x.toBits
  let (d, g) := (Neighbourhood.ofSignificand m q).shortest
  .ofNat d g

end Patchwork.Decimal
