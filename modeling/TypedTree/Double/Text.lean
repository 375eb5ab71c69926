import TypedTree.Decimal.Fixed
import TypedTree.Decimal.Shortest
import TypedTree.Double.Basic

/-!
# The text of a double

A finite double is written with the fewest digits that read back. Magnitudes from `10 ^ -4` up to `10 ^ 16` are
written positionally and always show a digit after the point; all others have one digit before the point and a
power of ten. The fixed form, used in reports, rounds the exact binary value.
-/

namespace TypedTree.Double

/-- The powers of ten of the leading digit that are written positionally. -/
def isPositional (lead : Int) : Bool := decide (-4 ≤ lead) && decide (lead < 16)

/-- The decimal `digits * 10 ^ exponent` in positional form. -/
def positional (digits : List Char) (exponent : Int) : String :=
  let point := (digits.length : Int) + exponent
  if 0 ≤ exponent then String.ofList digits ++ "".pushn '0' exponent.toNat ++ ".0"
  else if 0 < point then
    String.ofList (digits.take point.toNat) ++ "." ++ String.ofList (digits.drop point.toNat)
  else "0." ++ "".pushn '0' (-point).toNat ++ String.ofList digits

/-- The decimal `digits * 10 ^ exponent` with the power of ten `lead` of its first digit. -/
def scientific (digits : List Char) (lead : Int) : String :=
  String.ofList (digits.take 1) ++ (if digits.length ≤ 1 then "" else "." ++ String.ofList (digits.drop 1))
    ++ "e" ++ toString lead

/-- The text of the magnitude of a double that is a number. -/
def magnitudeText (x : Double) : String :=
  if x.isInfinite then "inf"
  else if x.isZero then "0.0"
  else
    let (m, q) := x.decompose
    let d := Decimal.shortest m q (m == hiddenBit && q != -1074)
    let digits := Nat.toDigits 10 d.digits
    let lead := (digits.length : Int) + d.exponent - 1
    if isPositional lead then positional digits d.exponent else scientific digits lead

/-- The text of a double. -/
def text (x : Double) : String :=
  if x.isNaN then "NaN" else (if x.isNegative then "-" else "") ++ x.magnitudeText

/-- The magnitude of a finite double with a fixed number of places. -/
def fixed (places : Nat) (x : Double) : String :=
  let (m, q) := x.decompose
  Decimal.fixed places (m <<< q.toNat) (1 <<< (-q).toNat)

end TypedTree.Double
