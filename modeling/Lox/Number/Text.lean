import Lox.Number.Shortest

/-!
# How numbers are written

Four texts of a double. A printed value shows whole numbers with all their digits and no fraction;
an expression tree adds `.0` to them; the text of a token does so only below `2 ^ 63`; serialised
tokens use positional notation in a window of magnitudes and an exponent with its sign outside it.
-/

namespace Lox.Number

def zeros (n : Nat) : String := String.ofList (List.replicate n '0')

/-- The digits of a decimal, without its exponent. -/
def Decimal.text (d : Decimal) : String := Nat.repr d.digits

/-- How many digits stand before the decimal point; zero or less when the number is below one tenth. -/
def Decimal.point (d : Decimal) : Int := d.text.length + d.exponent

/-- Positional notation, never with an exponent and with no needless fraction. -/
def Decimal.positional (d : Decimal) : String :=
  if 0 ≤ d.exponent then d.text ++ zeros d.exponent.toNat
  else if 0 < d.point then
    let digits := d.text.toList
    let n := d.point.toNat
    String.ofList (digits.take n) ++ "." ++ String.ofList (digits.drop n)
  else "0." ++ zeros (-d.point).toNat ++ d.text

/-- One digit before the point and an exponent that always has its sign. -/
def Decimal.scientific (d : Decimal) : String :=
  let digits := d.text.toList
  let head := String.ofList (digits.take 1)
  let tail := String.ofList (digits.drop 1)
  let power := d.point - 1
  let exponent := (if power < 0 then "e-" else "e+") ++ Nat.repr power.natAbs
  (if tail.isEmpty then head else head ++ "." ++ tail) ++ exponent

/-- The sign, by the sign bit. -/
def Exact.sign (x : Exact) : String := if x.negative then "-" else ""

/-- Infinities and NaN, in words. -/
def nonFinite (x : Float) : String :=
  if x.isNaN then "NaN" else if x < 0 then "-inf" else "inf"

/-- The shortest digits in positional notation. -/
def shortestText (x : Float) : String :=
  match Exact.ofFloat? x with
  | none => nonFinite x
  | some n => n.sign ++ (shortest .up n).positional

/-- Whole numbers with all their digits followed by `fraction`, other numbers by their shortest
digits. -/
def wholeOrShortest (fraction : String) (x : Float) : String :=
  match (Exact.ofFloat? x).bind fun n => n.whole?.map fun k => n.sign ++ Nat.repr k ++ fraction with
  | some text => text
  | none => shortestText x

/-- What `print` writes. -/
def valueText (x : Float) : String := wholeOrShortest "" x

/-- What the text of an expression tree shows. -/
def treeText (x : Float) : String := wholeOrShortest ".0" x

/-- What the text of a token shows: below `2 ^ 63` a whole number with a fraction of `.0` and no sign
on zero. -/
def tokenText (x : Float) : String :=
  let small := (Exact.ofFloat? x).bind fun n => n.whole?.bind fun k =>
    if k < pow2 63 then some ((if k = 0 then "" else n.sign) ++ Nat.repr k ++ ".0") else none
  match small with
  | some text => text
  | none => shortestText x

/-- Positional notation when the point lies in this window, given as digits before the point. -/
def inWindow (point : Int) : Bool := -4 ≤ point && point ≤ 16

/-- What serialised tokens show; a number that is not finite is `null`. -/
def serialText (x : Float) : String :=
  match Exact.ofFloat? x with
  | none => "null"
  | some n =>
    let d := shortest .toEven n
    n.sign ++
      if inWindow d.point then
        if 0 ≤ d.exponent then d.positional ++ ".0" else d.positional
      else d.scientific

end Lox.Number
