/-!
# Shortest decimal in an interval

A binary floating-point number stands for all reals that round to it. Its shortest decimal is the
point of the coarsest decimal grid `10 ^ k` that meets this interval; of the two grid points next to
the number the nearer one is taken, and the upper one if both are equally near.
-/

namespace ArithJit

/-- The decimal number `digits * 10 ^ exponent`. -/
structure Decimal where
  /-- The digits, read as one number. -/
  digits : Nat
  /-- The power of ten that the digits are multiplied by. -/
  exponent : Int
deriving DecidableEq, Repr

namespace Decimal

/-- The reals that round to one number, in units of `2 ^ scale`. -/
structure Interval where
  /-- The lower end. -/
  lower : Nat
  /-- The number itself. -/
  middle : Nat
  /-- The upper end. -/
  upper : Nat
  /-- The power of two that a unit is. -/
  scale : Int
  /-- Whether the ends round to the number too. -/
  closed : Bool
deriving DecidableEq, Repr

namespace Interval

/-- The factor that turns a unit of the interval into a multiple of the common unit of the interval
and the grid `10 ^ k`. -/
def unit (i : Interval) (k : Int) : Nat :=
  Nat.pow 2 i.scale.toNat * Nat.pow 10 (-k).toNat

/-- The step of the grid `10 ^ k` in the common unit. -/
def step (i : Interval) (k : Int) : Nat :=
  Nat.pow 2 (-i.scale).toNat * Nat.pow 10 k.toNat

/-- Whether the grid point `d * 10 ^ k` rounds to the number. -/
def holds (i : Interval) (k : Int) (d : Nat) : Bool :=
  let point := d * i.step k
  let lower := i.lower * i.unit k
  let upper := i.upper * i.unit k
  if i.closed then lower ≤ point && point ≤ upper else lower < point && point < upper

/-- The point of the grid `10 ^ k` that stands for the number, if the grid has one. -/
def onGrid (i : Interval) (k : Int) : Option Decimal :=
  let middle := i.middle * i.unit k
  let below := middle / i.step k
  let above := below + 1
  match i.holds k below, i.holds k above with
  | false, false => none
  | true, false => some ⟨below, k⟩
  | false, true => some ⟨above, k⟩
  | true, true =>
    if middle - below * i.step k < above * i.step k - middle then some ⟨below, k⟩ else some ⟨above, k⟩

/-- The shortest decimal on the grids from `10 ^ top` down to `10 ^ (top - count + 1)`. -/
def shortest (i : Interval) (top : Int) (count : Nat) : Option Decimal :=
  (List.range count).findSome? fun (n : Nat) => i.onGrid (top - n)

end Interval

/-- The decimal in positional notation, without an exponent. -/
def text (d : Decimal) : String :=
  let digits := toString d.digits
  if 0 ≤ d.exponent then
    digits ++ String.ofList (List.replicate d.exponent.toNat '0')
  else
    let places := (-d.exponent).toNat
    let padded := List.replicate (places + 1 - digits.length) '0' ++ digits.toList
    let whole := padded.length - places
    String.ofList (padded.take whole ++ '.' :: padded.drop whole)

end Decimal

end ArithJit
