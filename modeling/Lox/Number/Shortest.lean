import Lox.Number.Binary

/-!
# The fewest decimal digits that read back

A double stands for every real number that rounds to it: an interval around its value, with its ends
when the significand is even. `shortest` looks for a decimal in that interval, on the grid of one
significant digit, then of two, and so on; on each grid only the two neighbours of the value matter.
Of two hits the nearer one wins, and `Tie` says which of two equally near ones does.
-/

namespace Lox.Number

/-- The decimal `digits * 10 ^ exponent`. -/
structure Decimal where
  digits   : Nat
  exponent : Int
deriving DecidableEq, Repr

/-- Which of two equally near decimals is taken. -/
inductive Tie where
  | up
  | toEven
deriving DecidableEq, Repr

/-- Decimal places of the finest grid looked at; enough for every double. -/
def gridPlaces : Nat := 350

/-- The reals that round to a double, as ends over the common denominator `4 * 2 ^ unitPlaces`. -/
structure Interval where
  low    : Nat
  value  : Nat
  high   : Nat
  closed : Bool

namespace Exact

/-- Half the distance to either neighbour on both sides of the value. Below a power of two the
neighbours are closer together. -/
def interval (x : Exact) : Interval :=
  let value := 4 * x.units
  let gap := pow2 x.shift
  let below := if x.mantissa = pow2 significandBits ∧ 0 < x.shift then gap else 2 * gap
  { low := value - below, value, high := value + 2 * gap, closed := x.mantissa % 2 = 0 }

end Exact

namespace Interval

/-- Whether the decimal `point / 10 ^ gridPlaces` rounds to the double. -/
def holds (i : Interval) (point : Nat) : Bool :=
  let p := point * (4 * pow2 unitPlaces)
  let low := i.low * pow10 gridPlaces
  let high := i.high * pow10 gridPlaces
  if i.closed then low ≤ p && p ≤ high else low < p && p < high

/-- The value's neighbour on a grid of the given spacing, if one of the two is in the interval: the
count of grid steps. -/
def neighbour? (i : Interval) (tie : Tie) (spacing : Nat) : Option Nat :=
  let value := i.value * pow10 gridPlaces
  let step := spacing * (4 * pow2 unitPlaces)
  let below := value / step
  let rest := 2 * (value % step)
  let nearer :=
    if rest < step then below
    else if step < rest then below + 1
    else match tie with
      | .up => below + 1
      | .toEven => below + below % 2
  match i.holds (below * spacing), i.holds ((below + 1) * spacing) with
  | true, true => some nearer
  | true, false => some below
  | false, true => some (below + 1)
  | false, false => none

end Interval

/-- Moves trailing zeros of the digits into the exponent; `fuel` bounds how many. -/
def Decimal.trim : Nat → Decimal → Decimal
  | 0, d => d
  | fuel + 1, d =>
    if d.digits ≠ 0 ∧ d.digits % 10 = 0 then Decimal.trim fuel ⟨d.digits / 10, d.exponent + 1⟩ else d

/-- The first hit on the grids of `count`, `count + 1`, … significant digits. -/
def firstHit (i : Interval) (tie : Tie) (places : Nat) : Nat → Nat → Option Decimal
  | 0, _ => none
  | fuel + 1, count =>
    let power := places - count
    match i.neighbour? tie (pow10 power) with
    | some n => some ⟨n, (power : Int) - gridPlaces⟩
    | none => firstHit i tie places fuel (count + 1)

/-- The shortest decimal that reads back as the double's magnitude. Seventeen digits always do. -/
def shortest (tie : Tie) (x : Exact) : Decimal :=
  if x.mantissa = 0 then ⟨0, 0⟩
  else
    let places := (Nat.toDigits 10 (x.units * pow10 gridPlaces / pow2 unitPlaces)).length
    match firstHit x.interval tie places 17 1 with
    | some d => Decimal.trim 20 d
    | none => ⟨0, 0⟩

end Lox.Number
