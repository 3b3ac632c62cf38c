/-!
# Shortest decimals

A finite double is `mantissa * 2 ^ exponent`. Of the decimals that round to it, `shortest` takes
one with the fewest digits, and of those the nearest; a value half way between two decimals
goes to the larger one.

The decimals that round to `x` fill the interval between the midpoints to its neighbours, with
its ends if the mantissa is even. For each number of digits only the two decimals next to `x`
on that grid can be in the interval and nearest, so both are tried, for one digit, two digits and
so on; seventeen always suffice. All arithmetic is exact.
-/

namespace DocScript

/-- A double taken apart. -/
inductive Parts where
  | nan
  | infinite (negative : Bool)
  | finite (negative : Bool) (mantissa : Nat) (exponent : Int)
  deriving DecidableEq, Repr

namespace Parts

/-- Takes the encoding of a double apart: sign, eleven bits of exponent, 52 bits of fraction. -/
def ofBits (bits : UInt64) : Parts :=
  let negative := bits >>> 63 == 1
  let biased := ((bits >>> 52) &&& 0x7ff).toNat
  let fraction := (bits &&& 0xfffffffffffff).toNat
  if biased = 0x7ff then
    if fraction = 0 then infinite negative else nan
  else if biased = 0 then finite negative fraction (-1074)
  else finite negative (fraction + Nat.pow 2 52) (biased - 1075)

/-- The parts of a double. -/
def ofFloat (x : Float) : Parts := ofBits x.toBits

end Parts

/-- The number `coefficient * 10 ^ exponent`. -/
structure Decimal where
  coefficient : Nat
  exponent : Int
  deriving DecidableEq, Repr

namespace Decimal

/-- How many decimal digits `n` has; zero has one. -/
def digitCount (n : Nat) : Nat := (Nat.toDigits 10 n).length

/-- A positive number `value / scale` with the interval of numbers that round to it. -/
structure Interval where
  low : Nat
  value : Nat
  high : Nat
  scale : Nat
  closed : Bool

namespace Interval

/-- The interval of `mantissa * 2 ^ exponent`. Below a power of two the neighbour is half as far
away, except under the least exponent. -/
def ofParts (mantissa : Nat) (exponent : Int) : Interval :=
  let gap := if mantissa = Nat.pow 2 52 ∧ exponent ≠ -1074 then 1 else 2
  let factor := Nat.pow 2 (exponent - 2).toNat
  { low := (4 * mantissa - gap) * factor
    value := 4 * mantissa * factor
    high := (4 * mantissa + 2) * factor
    scale := Nat.pow 2 (2 - exponent).toNat
    closed := mantissa % 2 = 0 }

/-- The same numbers in units of `10 ^ unit`. -/
def inUnits (i : Interval) (unit : Int) : Interval :=
  let factor := Nat.pow 10 (-unit).toNat
  { low := i.low * factor
    value := i.value * factor
    high := i.high * factor
    scale := i.scale * Nat.pow 10 unit.toNat
    closed := i.closed }

/-- Whether the whole number `n` rounds to the value. -/
def holds (i : Interval) (n : Nat) : Bool :=
  if i.closed then i.low ≤ n * i.scale && n * i.scale ≤ i.high
  else i.low < n * i.scale && n * i.scale < i.high

/-- The least `k` with `value / scale < 10 ^ k`. -/
def magnitude (i : Interval) : Int :=
  if i.scale ≤ i.value then digitCount (i.value / i.scale)
  else 1 - (digitCount ((i.scale - 1) / i.value) : Int)

/-- The nearest whole number in the interval, a tie going up, if one next to the value is in it. -/
def nearest? (i : Interval) : Option Nat :=
  let below := i.value / i.scale
  let rest := i.value % i.scale
  if i.holds below && (2 * rest < i.scale || !i.holds (below + 1)) then some below
  else if i.holds (below + 1) then some (below + 1)
  else none

end Interval

/-- The decimal with `digits` digits that stands for the value, if there is one. -/
def withDigits? (i : Interval) (digits : Nat) : Option Decimal :=
  let unit := i.magnitude - digits
  (i.inUnits unit).nearest?.map fun n => ⟨n, unit⟩

/-- The shortest decimal that rounds to `mantissa * 2 ^ exponent`. -/
def shortest (mantissa : Nat) (exponent : Int) : Decimal :=
  if mantissa = 0 then ⟨0, 0⟩
  else
    let i := Interval.ofParts mantissa exponent
    ((List.range 17).findSome? fun n => withDigits? i (n + 1)).getD ⟨mantissa, exponent⟩

/-- Drops the zeros at the end. -/
def trimZeros (cs : List Char) : List Char := (cs.reverse.dropWhile (· = '0')).reverse

/-- The digits of `n`, filled up with zeros on the left to `width`. -/
def padded (width n : Nat) : List Char :=
  let ds := Nat.toDigits 10 n
  List.replicate (width - ds.length) '0' ++ ds

/-- The decimal written out without an exponent, and without a point if nothing follows it. -/
def positional (d : Decimal) : List Char :=
  let up := d.exponent.toNat
  let down := (-d.exponent).toNat
  let whole := d.coefficient * Nat.pow 10 up
  let fraction := trimZeros (padded down (whole % Nat.pow 10 down))
  Nat.toDigits 10 (whole / Nat.pow 10 down)
    ++ if down = 0 ∨ fraction = [] then [] else '.' :: fraction

end Decimal

end DocScript
