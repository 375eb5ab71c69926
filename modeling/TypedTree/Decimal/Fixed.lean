/-!
# Decimals with a fixed number of places

A fraction is written with a given number of digits after the point; what is cut off is rounded to nearest, and a
half goes to the even neighbour.
-/

namespace TypedTree.Decimal

/-- The quotient of two numbers rounded to nearest, a half to even. -/
def roundDiv (n d : Nat) : Nat :=
  let c := n / d
  match compare (2 * (n % d)) d with
  | .lt => c
  | .gt => c + 1
  | .eq => if c % 2 = 0 then c else c + 1

/-- The fraction `n / d` with `places` digits after the point. -/
def fixed (places n d : Nat) : String :=
  let unit := Nat.pow 10 places
  let r := roundDiv (n * unit) d
  let digits := Nat.toDigits 10 (r % unit)
  toString (r / unit) ++ "." ++ "".pushn '0' (places - digits.length) ++ String.ofList digits

end TypedTree.Decimal
