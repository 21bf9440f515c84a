import ModuleScript.Number.Binary64
import ModuleScript.Text.Decimal

/-!
# Shortest decimal text

A finite number is written with the fewest digits that read back as the same number, and of those
with the digits nearest to it. Numbers from 10^-4 up to 10^16 are written in positional notation,
the others with an exponent of at least two digits.
-/

set_option autoImplicit false

namespace ModuleScript.Binary64

/-- A decimal number in scientific form: the natural `digits` times ten to `exponent`. -/
structure Scientific where
  digits : Nat
  exponent : Int
  deriving DecidableEq, Repr

/-- Four times the ends of the reals that round to a number and four times the number itself, in
units of 2^-1074; `closed` if the ends round to it too. -/
structure Interval where
  low : Nat
  value : Nat
  high : Nat
  closed : Bool

def interval (x : Binary64) : Interval :=
  let unit := twoTo x.doublings
  let below := if x.fractionBits = 0 ∧ 1 < x.exponentBits then 1 else 2
  { low := (4 * x.significand - below) * unit
    value := 4 * x.significand * unit
    high := (4 * x.significand + 2) * unit
    closed := x.significand % 2 == 0 }

/-- Four units of 2^-1074 make up one of these to the whole. -/
def denominator : Nat := 4 * unitsPerOne

/-- The number of decimal places before the point of `n / denominator`, negative when zeros follow
the point. -/
def places (n : Nat) : Int :=
  ((Nat.toDigits 10 (n * Decimal.tenTo 400 / denominator)).length : Int) - 400

/-- A decimal number as `num` units of an interval over `den`. -/
def Scientific.scaled (d : Scientific) : Nat × Nat :=
  (d.digits * Decimal.tenTo d.exponent.toNat * denominator, Decimal.tenTo (-d.exponent).toNat)

/-- Whether a decimal number reads back as the number with this interval. -/
def Interval.holds (i : Interval) (d : Scientific) : Bool :=
  let (num, den) := d.scaled
  if i.closed then i.low * den ≤ num && num ≤ i.high * den
  else i.low * den < num && num < i.high * den

/-- The better of the two decimal numbers with a given exponent next to the value: one that reads
back, and of two the nearer, and of two as near the even one. -/
def Interval.nearest? (i : Interval) (exponent : Int) : Option Scientific :=
  let grid := Decimal.tenTo exponent.toNat * denominator
  let value := i.value * Decimal.tenTo (-exponent).toNat
  let below : Scientific := ⟨value / grid, exponent⟩
  let above : Scientific := ⟨value / grid + 1, exponent⟩
  let twice := 2 * (value % grid)
  let preferBelow := twice < grid || (twice == grid && below.digits % 2 == 0)
  match i.holds below && below.digits != 0, i.holds above with
  | true, true => some (if preferBelow then below else above)
  | true, false => some below
  | false, true => some above
  | false, false => none

/-- Tries one digit after another, from `count` digits on; seventeen always suffice. -/
def Interval.search (i : Interval) (places : Int) (count : Nat) : Nat → Scientific
  | 0 => ⟨i.value / denominator, 0⟩
  | fuel + 1 =>
    match i.nearest? (places - count) with
    | some d => d
    | none => i.search places (count + 1) fuel

def Scientific.trimmed (d : Scientific) : Nat → Scientific
  | 0 => d
  | fuel + 1 =>
    if d.digits ≠ 0 ∧ d.digits % 10 = 0 then
      Scientific.trimmed ⟨d.digits / 10, d.exponent + 1⟩ fuel
    else d

/-- The shortest decimal number that reads back as a finite number other than zero. -/
def shortest (x : Binary64) : Scientific :=
  let i := x.interval
  (i.search (places i.value) 1 17).trimmed 17

/-- Decimal exponents of positional notation. -/
def positional (exponent : Int) : Bool := -4 ≤ exponent && exponent < 16

def zeros (n : Nat) : Text := List.replicate n ('0' : CodePoint)

def Scientific.text (d : Scientific) : Text :=
  let ds := Decimal.ofNat d.digits
  let point : Int := ds.length + d.exponent
  let exponent := point - 1
  if positional exponent then
    if 0 ≤ d.exponent then ds ++ zeros d.exponent.toNat ++ ".0"
    else if 0 < point then ds.take point.toNat ++ "." ++ ds.drop point.toNat
    else "0." ++ zeros (-point).toNat ++ ds
  else
    let fraction : Text := if ds.length = 1 then [] else "." ++ ds.drop 1
    let size := Decimal.ofNat exponent.natAbs
    ds.take 1 ++ fraction ++ "e" ++ (if exponent < 0 then "-" else "+" : Text) ++
      zeros (2 - size.length) ++ size

def text (x : Binary64) : Text :=
  if x.isNaN then "nan"
  else
    let magnitude : Text :=
      if x.isInfinite then "inf" else if x.isZero then "0.0" else x.shortest.text
    if x.isNegative then "-" ++ magnitude else magnitude

end ModuleScript.Binary64
