import ArithJit.Decimal.Shortest

/-!
# Single-precision numbers

A `Single` is a floating-point number given by its 32 bits: a sign, eight bits of exponent and 23 bits
of fraction. Two of them are equal as numbers if they are the same number, so a zero equals the
negative zero and what is not a number equals nothing (`Single.equal`).
-/

namespace ArithJit

/-- A single-precision floating-point number. -/
structure Single where
  /-- Sign, exponent and fraction, from the highest bit down. -/
  bits : UInt32
deriving DecidableEq, Repr

namespace Single

/-- Whether the sign bit is set. -/
def negative (x : Single) : Bool :=
  x.bits.toNat ≥ 0x80000000

/-- The exponent field. -/
def exponentField (x : Single) : Nat :=
  x.bits.toNat / 0x800000 % 0x100

/-- The fraction field. -/
def fraction (x : Single) : Nat :=
  x.bits.toNat % 0x800000

/-- Whether the bits stand for no number. -/
def isNaN (x : Single) : Bool :=
  x.exponentField = 255 && x.fraction ≠ 0

/-- Whether the number is infinite. -/
def isInfinite (x : Single) : Bool :=
  x.exponentField = 255 && x.fraction = 0

/-- Whether the number is zero, of either sign. -/
def isZero (x : Single) : Bool :=
  x.exponentField = 0 && x.fraction = 0

/-- Equality of the numbers, as opposed to equality of their bits. -/
def equal (x y : Single) : Bool :=
  !x.isNaN && !y.isNaN && (x.bits == y.bits || (x.isZero && y.isZero))

/-- The reals that round to the absolute value of a finite number. The gap below a power of two is half
the gap above it, unless the number below is subnormal. -/
def interval (x : Single) : Decimal.Interval :=
  let significand := if x.exponentField = 0 then x.fraction else x.fraction + 0x800000
  let gapBelow := if x.fraction = 0 && x.exponentField > 1 then 1 else 2
  { lower := 4 * significand - gapBelow
    middle := 4 * significand
    upper := 4 * significand + 2
    scale := (max x.exponentField 1 : Int) - 152
    closed := significand % 2 = 0 }

/-- The text of the absolute value of a finite number. The coarsest grid that is tried is `10 ^ 39`,
above the largest number, and the finest lies below half of the smallest one. -/
def magnitudeText (x : Single) : String :=
  if x.isZero then "0"
  else
    match x.interval.shortest 39 100 with
    | some d => d.text
    | none => "0"

/-- The number in positional notation, with the fewest digits that read back. -/
def text (x : Single) : String :=
  if x.isNaN then "NaN"
  else
    let sign := if x.negative then "-" else ""
    sign ++ if x.isInfinite then "inf" else x.magnitudeText

end Single

end ArithJit
