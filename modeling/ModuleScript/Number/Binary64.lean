import ModuleScript.Text.Basic

/-!
# Binary floating point numbers

A 64-bit floating point number is its bit pattern. Its exact value is a whole number of units of
2^-1074, an infinity or not a number; a ratio of naturals rounds to the nearest number, and a tie
goes to the even one.
-/

set_option autoImplicit false

namespace ModuleScript

structure Binary64 where
  bits : UInt64
  deriving DecidableEq, Repr

namespace Binary64

def twoTo (n : Nat) : Nat := Nat.pow 2 n

/-- How many of the smallest positive numbers make one. -/
def unitsPerOne : Nat := twoTo 1074

def toFloat (x : Binary64) : Float := Float.ofBits x.bits

def ofFloat (x : Float) : Binary64 := ⟨x.toBits⟩

def isNegative (x : Binary64) : Bool := twoTo 63 ≤ x.bits.toNat

def exponentBits (x : Binary64) : Nat := x.bits.toNat / twoTo 52 % twoTo 11

def fractionBits (x : Binary64) : Nat := x.bits.toNat % twoTo 52

def isNaN (x : Binary64) : Bool := x.exponentBits == 2047 && x.fractionBits != 0

def isInfinite (x : Binary64) : Bool := x.exponentBits == 2047 && x.fractionBits == 0

def isZero (x : Binary64) : Bool := x.exponentBits == 0 && x.fractionBits == 0

def significand (x : Binary64) : Nat :=
  if x.exponentBits = 0 then x.fractionBits else x.fractionBits + twoTo 52

/-- The significand of a finite number counts units of 2^-1074 doubled this many times. -/
def doublings (x : Binary64) : Nat := x.exponentBits - 1

def units (x : Binary64) : Int :=
  let magnitude : Nat := x.significand * twoTo x.doublings
  if x.isNegative then -magnitude else magnitude

def infinity : Binary64 := ⟨0x7FF0000000000000⟩

def negate (x : Binary64) : Binary64 := ⟨x.bits ^^^ 0x8000000000000000⟩

/-- The quotient to the nearest natural; a tie goes to the even one. -/
def roundedQuotient (num den : Nat) : Nat :=
  let q := num / den
  let twice := 2 * (num % den)
  if den < twice ∨ (twice = den ∧ q % 2 = 1) then q + 1 else q

/-- The doublings of the unit 2^-1074 at which the quotient keeps 53 bits, or none if it is too
small for that. -/
def scaleOf (num den : Nat) : Nat :=
  let whole := num * unitsPerOne / den
  whole.log2 - 52

/-- The number nearest to a ratio; beyond the range it is infinity. -/
def ofRatio (num den : Nat) : Binary64 :=
  let scale := scaleOf num den
  let q := roundedQuotient (num * unitsPerOne) (den * twoTo scale)
  let bits := scale * twoTo 52 + q
  if bits < 0x7FF0000000000000 then ⟨UInt64.ofNat bits⟩ else infinity

def ofInt? (i : Int) : Option Binary64 :=
  let x := ofRatio i.natAbs 1
  if x.isInfinite then none else some (if i < 0 then x.negate else x)

end Binary64

end ModuleScript
