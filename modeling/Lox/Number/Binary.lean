/-!
# Doubles as exact numbers

Every finite double is a whole number of units, where one unit is `2 ^ -1074`, the smallest positive
double. `Exact.ofFloat?` takes a double apart into such a count; `ofRatio` goes the other way and
rounds a ratio of whole numbers to the nearest double. Both work in exact `Nat` arithmetic.
-/

namespace Lox.Number

/-- A power of two. -/
def pow2 (n : Nat) : Nat := Nat.pow 2 n

/-- A power of ten. -/
def pow10 (n : Nat) : Nat := Nat.pow 10 n

/-- Binary places of the unit: one unit is `2 ^ -unitPlaces`. -/
def unitPlaces : Nat := 1074

/-- Bits of a stored significand. -/
def significandBits : Nat := 52

/-- The exponent field that marks infinities and NaN. -/
def topField : Nat := 2047

/-- A finite double: up to its sign, `mantissa * 2 ^ shift` units. -/
structure Exact where
  negative : Bool
  mantissa : Nat
  shift    : Nat
deriving DecidableEq, Repr

namespace Exact

/-- The magnitude, in units. -/
def units (x : Exact) : Nat := x.mantissa * pow2 x.shift

/-- The parts of a finite double; `none` for infinities and NaN. -/
def ofBits? (bits : Nat) : Option Exact :=
  let field := bits / pow2 significandBits % 2048
  let fraction := bits % pow2 significandBits
  let negative := pow2 63 ≤ bits
  if field = topField then none
  else if field = 0 then some ⟨negative, fraction, 0⟩
  else some ⟨negative, pow2 significandBits + fraction, field - 1⟩

def ofFloat? (x : Float) : Option Exact := ofBits? x.toBits.toNat

/-- The magnitude as a whole number, if it is one. -/
def whole? (x : Exact) : Option Nat :=
  if x.units % pow2 unitPlaces = 0 then some (x.units / pow2 unitPlaces) else none

end Exact

/-- The quotient rounded to the nearest whole number, a half to the even neighbour. -/
def roundDiv (num den : Nat) : Nat :=
  let q := num / den
  let twice := 2 * (num % den)
  if twice < den then q
  else if den < twice then q + 1
  else q + q % 2

/-- The bits of the double nearest to `num / den`, a half to the even significand; infinity when the
ratio is too large. A significand that rounds up to the next power of two carries into the exponent
field, where it is the right one. -/
def bitsOfRatio (num den : Nat) : Nat :=
  let scaled := num * pow2 unitPlaces
  let shift := (scaled / den).log2 - significandBits
  min (shift * pow2 significandBits + roundDiv scaled (den * pow2 shift))
    (topField * pow2 significandBits)

/-- The double nearest to `num / den`. -/
def ofRatio (num den : Nat) : Float := Float.ofBits (bitsOfRatio num den).toUInt64

/-- The number that a run of decimal digits stands for. -/
def ofDigits (digits : List Char) : Nat :=
  digits.foldl (fun n c => 10 * n + (c.toNat - '0'.toNat)) 0

/-- The double nearest to the decimal `whole.fraction`. -/
def ofDecimal (whole fraction : List Char) : Float :=
  ofRatio (ofDigits (whole ++ fraction)) (pow10 fraction.length)

end Lox.Number
