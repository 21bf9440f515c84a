import ModuleScript.Text.Blank
import ModuleScript.Text.Case
import ModuleScript.Text.Digit
import ModuleScript.Value.Operators

/-!
# Natives on values alone

The native functions that neither call back nor read or write. Each checks its arguments from left
to right.
-/

set_option autoImplicit false

namespace ModuleScript.Value

def expectText (native : Native) : Value → Except Failure Text
  | text t => .ok t
  | char c => .ok [c]
  | v => Failure.because (.textExpected native.name v.typeName)

def expectInt (native : Native) : Value → Except Failure Int
  | number (.int i) => .ok i
  | v => do
    let shown ← Failure.lift v.display
    Failure.because (.integerExpected native.name shown)

def expectItems (native : Native) (v : Value) : Except Failure (List Value) :=
  match v.items? with
  | some items => .ok items
  | none => Failure.because (.listExpected native.name v.typeName)

/-- A change of case; a char stays a char if one code point is left. -/
def changeCase (native : Native) (change : Text → Text) (v : Value) : Except Failure Value := do
  let t ← v.expectText native
  return match v, change t with
  | char _, [c] => char c
  | _, t => text t

/-- The integers from the first up to, not including, the second. -/
def numberRange (first stop : Value) : Except Failure Value := do
  let low ← first.expectInt .range
  let high ← stop.expectInt .range
  return list ((List.range (high - low).toNat).map fun (k : Nat) => int (low + k))

def substring (v first stop : Value) : Except Failure Value := do
  let t ← v.expectText .substr
  let begin ← first.expectInt .substr
  let finish ← stop.expectInt .substr
  if 0 ≤ begin ∧ begin ≤ finish ∧ finish ≤ t.length then
    return text ((t.take finish.toNat).drop begin.toNat)
  else
    let shownBegin ← Failure.lift (Decimal.ofInt? begin)
    let shownFinish ← Failure.lift (Decimal.ofInt? finish)
    Failure.because (.badSubstring shownBegin shownFinish t.length)

def readDigits (t : Text) : Option (List Nat) :=
  if t.isEmpty then none else t.mapM CodePoint.digit?

/-- A sign and the digits behind it, or the digits alone. -/
def splitSign : Text → Bool × Text
  | [] => (false, [])
  | c :: rest =>
    if c = '-' then (true, rest) else if c = '+' then (false, rest) else (false, c :: rest)

/-- The integer that a text names between white space, or the unit. -/
def parseInteger (v : Value) : Except Failure Value := do
  let t ← v.expectText .parseVal
  let (negative, digits) := splitSign (Text.trim t)
  match readDigits digits with
  | none => return unit
  | some ds =>
    let n ← Failure.lift (Decimal.read ds)
    return int (if negative then -n else n)

/-- The truth value that a text names between white space, or the unit. -/
def parseTruth (v : Value) : Except Failure Value := do
  let t ← v.expectText .parseBool
  let t := Text.trim t
  return if t = "true" then bool true else if t = "false" then bool false else unit

def reversed : Value → Except Failure Value
  | text t => .ok (text t.reverse)
  | v => do
    let items ← v.expectItems .reverse
    return list items.reverse

def last (v : Value) : Except Failure Value := do
  let items ← v.expectItems .seq
  return items.getLast?.getD unit

/-- Applies a native that needs nothing but its arguments; `none` for the others, and if the number
of arguments is not the native's. -/
def applyNative? (n : Native) (args : List Value) : Option (Except Failure Value) :=
  match n, args with
  | .typeof, [v] => some (.ok (text v.typeName))
  | .upper, [v] => some (v.changeCase .upper Text.upper)
  | .lower, [v] => some (v.changeCase .lower Text.lower)
  | .substr, [v, first, stop] => some (v.substring first stop)
  | .parseVal, [v] => some v.parseInteger
  | .parseBool, [v] => some v.parseTruth
  | .range, [first, stop] => some (numberRange first stop)
  | .reverse, [v] => some v.reversed
  | .seq, [v] => some v.last
  | _, _ => none

end ModuleScript.Value
