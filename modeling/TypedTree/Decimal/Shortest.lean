/-!
# The shortest decimal

A positive binary floating point number stands for every real that rounds to it. `Decimal.shortest` finds, among
the decimals in that interval, one with the fewest digits, and of those the one nearest to the number. All
arithmetic is exact.

The number is `m * 2 ^ q`. Its neighbours are `m + 1` and, with half the spacing at the lower end of a binade,
`m - 1` steps away, so the ends of the interval are multiples of `2 ^ (q - 2)`; they belong to it when `m` is even.
-/

namespace TypedTree

/-- The number `digits * 10 ^ exponent`. -/
structure Decimal where
  /-- The decimal digits, read as one number. -/
  digits : Nat
  /-- The power of ten. -/
  exponent : Int
deriving DecidableEq, Repr

namespace Decimal

/-- The reals that round to a number: all of them and the number itself over one denominator. -/
structure Interval where
  /-- The lower end. -/
  low : Nat
  /-- The number. -/
  mid : Nat
  /-- The upper end. -/
  high : Nat
  /-- The common denominator. -/
  den : Nat
  /-- The ends belong to the interval. -/
  closed : Bool

/-- The powers of ten. -/
def tenTo (n : Nat) : Nat := Nat.pow 10 n

/-- The interval around `m * 2 ^ q`; `edge` says that the spacing below the number is half the spacing above. -/
def Interval.around (m : Nat) (q : Int) (edge : Bool) : Interval :=
  let scale := 1 <<< (q - 2).toNat
  { low := (4 * m - if edge then 1 else 2) * scale
    mid := 4 * m * scale
    high := (4 * m + 2) * scale
    den := 1 <<< (2 - q).toNat
    closed := m % 2 = 0 }

/-- Whether `c * 10 ^ p` lies in the interval. -/
def Interval.contains (i : Interval) (c : Nat) (p : Int) : Bool :=
  let x := c * tenTo p.toNat * i.den
  let ten := tenTo (-p).toNat
  if i.closed then decide (i.low * ten ≤ x) && decide (x ≤ i.high * ten)
  else decide (i.low * ten < x) && decide (x < i.high * ten)

/-- The largest `c` with `c * 10 ^ p` at most the number. -/
def Interval.floorAt (i : Interval) (p : Int) : Nat :=
  i.mid * tenTo (-p).toNat / (tenTo p.toNat * i.den)

/-- Whether the number is nearer to `c + 1` than to `c`, in units of `10 ^ p`; half way counts as nearer. -/
def Interval.nearerAbove (i : Interval) (c : Nat) (p : Int) : Bool :=
  decide ((2 * c + 1) * tenTo p.toNat * i.den ≤ 2 * i.mid * tenTo (-p).toNat)

/-- A decimal of the interval on the grid of step `10 ^ p`, if one of the number's two neighbours there is. -/
def Interval.onGrid (i : Interval) (p : Int) : Option Decimal :=
  let c := i.floorAt p
  match i.contains c p, i.contains (c + 1) p with
  | true, true => some ⟨if i.nearerAbove c p then c + 1 else c, p⟩
  | true, false => some ⟨c, p⟩
  | false, true => some ⟨c + 1, p⟩
  | false, false => none

/-- The number of decimal digits of a positive number. -/
def width (n : Nat) : Nat := (Nat.toDigits 10 n).length

/-- Every positive double times this power of ten is above one. -/
def headroom : Nat := 400

/-- The least `e` with the number below `10 ^ e`. -/
def Interval.scale (i : Interval) : Int := (width (i.mid * tenTo headroom / i.den) : Int) - headroom

/-- The first hit when the grid is refined from `10 ^ p` on, `fuel` times at most. -/
def Interval.refine (i : Interval) : Nat → Int → Decimal
  | 0, p => ⟨i.floorAt p, p⟩
  | fuel + 1, p => (i.onGrid p).getD (i.refine fuel (p - 1))

/-- A decimal without zeros at its end. `fuel` bounds the number of zeros. -/
def trim : Nat → Decimal → Decimal
  | 0, d => d
  | fuel + 1, d => if d.digits ≠ 0 ∧ d.digits % 10 = 0 then trim fuel ⟨d.digits / 10, d.exponent + 1⟩ else d

/-- The shortest decimal that rounds to `m * 2 ^ q`, nearest to it among the shortest. Seventeen digits always
suffice. -/
def shortest (m : Nat) (q : Int) (edge : Bool) : Decimal :=
  let i := Interval.around m q edge
  trim 17 (i.refine 17 (i.scale - 1))

end Decimal

end TypedTree
