/-!
# Doubles

Binary floating point numbers of 64 bits, kept as their bits. Two of them are the same datum when the bits agree
(`=`); they are numerically equal (`Double.equals`) when neither is a NaN and they agree up to the sign of zero.
-/

namespace TypedTree

/-- A binary floating point number of 64 bits. -/
structure Double where
  /-- Sign, exponent and fraction, from the highest bit down. -/
  bits : UInt64
deriving DecidableEq, Repr

namespace Double

/-- The bits without the sign. -/
def magnitude (x : Double) : UInt64 := x.bits &&& 0x7fffffffffffffff

/-- The sign bit is set. -/
def isNegative (x : Double) : Bool := x.bits &&& 0x8000000000000000 != 0

/-- The magnitude of the infinities; larger magnitudes are NaNs. -/
def infinityBits : UInt64 := 0x7ff0000000000000

/-- Not a number. -/
def isNaN (x : Double) : Bool := decide (infinityBits < x.magnitude)

/-- One of the two infinities. -/
def isInfinite (x : Double) : Bool := x.magnitude == infinityBits

/-- One of the two zeros. -/
def isZero (x : Double) : Bool := x.magnitude == 0

/-- Numerical equality: a NaN equals nothing, and the two zeros are equal. -/
def equals (x y : Double) : Bool :=
  !x.isNaN && !y.isNaN && (x.bits == y.bits || (x.isZero && y.isZero))

/-- Positive zero. -/
def zero : Double := ⟨0⟩

/-- The number one. -/
def one : Double := ⟨0x3ff0000000000000⟩

/-- The largest finite number. -/
def largest : Double := ⟨0x7fefffffffffffff⟩

/-- The least finite number. -/
def least : Double := ⟨0xffefffffffffffff⟩

/-- The first bit of the fraction of a normal number, which is not part of its bits. -/
def hiddenBit : Nat := 0x10000000000000

/-- The magnitude of a finite number as `m * 2 ^ q`, given as the pair of `m` and `q`. -/
def decompose (x : Double) : Nat × Int :=
  let exponent := (x.magnitude >>> 52).toNat
  let fraction := (x.bits &&& 0xfffffffffffff).toNat
  if exponent = 0 then (fraction, -1074) else (fraction + hiddenBit, (exponent : Int) - 1075)

end Double

end TypedTree
