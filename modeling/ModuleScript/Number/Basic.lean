import ModuleScript.Fault
import ModuleScript.Number.Shortest

/-!
# Numbers

A number is an integer of any size or a floating point number. An operation on two integers is
exact; if one operand is floating, the other is rounded to floating, which fails beyond the range.
Comparison is exact in every case.
-/

set_option autoImplicit false

namespace ModuleScript

inductive Number where
  | int (i : Int)
  | float (x : Binary64)
  deriving DecidableEq, Repr

namespace Number

def isZero : Number → Bool
  | int i => i == 0
  | float x => x.isZero

def toFloat : Number → Except Fault Float
  | int i =>
    match Binary64.ofInt? i with
    | some x => .ok x.toFloat
    | none => .error .overflow
  | float x => .ok x.toFloat

def floating (op : Float → Float → Float) (a b : Number) : Except Fault Number := do
  let x ← a.toFloat
  let y ← b.toFloat
  return float (Binary64.ofFloat (op x y))

def arithmetic (exact : Int → Int → Int) (op : Float → Float → Float) :
    Number → Number → Except Fault Number
  | int i, int j => .ok (int (exact i j))
  | a, b => floating op a b

def add : Number → Number → Except Fault Number := arithmetic (· + ·) (· + ·)

def sub : Number → Number → Except Fault Number := arithmetic (· - ·) (· - ·)

def mul : Number → Number → Except Fault Number := arithmetic (· * ·) (· * ·)

/-- The quotient without its sign, which is negative if exactly one of the integers is. -/
def quotient (i j : Int) : Int :=
  let q : Int := i.natAbs / j.natAbs
  if (i < 0) = (j < 0) then q else -q

/-- Meant for a divisor other than zero. -/
def div : Number → Number → Except Fault Number := arithmetic quotient (· / ·)

def neg : Number → Number
  | int i => int (-i)
  | float x => float x.negate

/-- The place of a number on the line: not a number, an infinity, or so many units of 2^-1074. -/
inductive Place where
  | nowhere
  | negativeEnd
  | finite (units : Int)
  | positiveEnd

def place : Number → Place
  | int i => .finite (i * Binary64.unitsPerOne)
  | float x =>
    if x.isNaN then .nowhere
    else if x.isInfinite then (if x.isNegative then .negativeEnd else .positiveEnd)
    else .finite x.units

def Place.compare? : Place → Place → Option Ordering
  | nowhere, _ | _, nowhere => none
  | negativeEnd, negativeEnd | positiveEnd, positiveEnd => some .eq
  | negativeEnd, _ | _, positiveEnd => some .lt
  | _, negativeEnd | positiveEnd, _ => some .gt
  | finite a, finite b => some (compare a b)

/-- The order of two numbers; `none` if one of them is not a number. -/
def compare? : Number → Number → Option Ordering
  | int i, int j => some (compare i j)
  | a, b => a.place.compare? b.place

/-- Equal as numbers, whether written as integers or not. -/
def same (a b : Number) : Bool := a.compare? b == some .eq

def less (a b : Number) : Bool := a.compare? b == some .lt

/-- The text of a number; an integer with too many digits has none. -/
def text : Number → Except Fault Text
  | int i => Decimal.ofInt? i
  | float x => .ok x.text

end Number

end ModuleScript
