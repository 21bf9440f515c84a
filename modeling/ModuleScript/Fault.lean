import ModuleScript.Text.Decimal
import ModuleScript.Text.Quoted

/-!
# Faults

Failures that are not errors of the language: a limit of number conversion, a file that cannot be
read, a path that names nothing. They pass through a running program and end it.
-/

set_option autoImplicit false

namespace ModuleScript

inductive FileTrouble where
  | missing
  | notDirectory
  | isDirectory
  | nameTooLong
  deriving DecidableEq, Repr

namespace FileTrouble

def code : FileTrouble → Nat
  | missing => 2
  | notDirectory => 20
  | isDirectory => 21
  | nameTooLong => 36

def reason : FileTrouble → Text
  | missing => "No such file or directory"
  | notDirectory => "Not a directory"
  | isDirectory => "Is a directory"
  | nameTooLong => "File name too long"

end FileTrouble

inductive Fault where
  /-- An integer beyond the range of floating point numbers meets one. -/
  | overflow
  /-- An integer with too many digits is to be written. -/
  | tooManyDigits
  /-- A numeral with this many digits, too many, is to be read. -/
  | numeralTooLong (digits : Nat)
  | notLoading
  /-- The recursion limit is beyond what a frame counter can hold. -/
  | limitTooLarge
  | undecodable
  | nullInPath
  /-- A text that is to be encoded holds these surrogates in a row, from this place on. -/
  | surrogates (row : Text) (place : Nat)
  | file (trouble : FileTrouble) (path : Text)
  deriving DecidableEq, Repr

namespace Fault

/-- The path of a file cannot be encoded. -/
@[match_pattern]
abbrev surrogateInPath (row : Text) (place : Nat) : Fault := surrogates row place

def message : Fault → Text
  | overflow => "int too large to convert to float"
  | tooManyDigits =>
    "Exceeds the limit (4300 digits) for integer string conversion; " ++
      ("use sys.set_int_max_str_digits() to increase the limit" : Text)
  | numeralTooLong n =>
    "Exceeds the limit (4300 digits) for integer string conversion: value has " ++
      Decimal.ofNat n ++ " digits; use sys.set_int_max_str_digits() to increase the limit"
  | notLoading => "list.remove(x): x not in list"
  | limitTooLarge => "Python int too large to convert to C int"
  | undecodable => []
  | nullInPath => "embedded null byte"
  | surrogates [c] place =>
    "'utf-8' codec can't encode character '\\u" ++ (Nat.toDigits 16 c.val).map CodePoint.ofChar ++
      "' in position " ++ Decimal.ofNat place ++ ": surrogates not allowed"
  | surrogates row place =>
    "'utf-8' codec can't encode characters in position " ++ Decimal.ofNat place ++ "-" ++
      Decimal.ofNat (place + row.length - 1) ++ ": surrogates not allowed"
  | file trouble path =>
    "[Errno " ++ Decimal.ofNat trouble.code ++ "] " ++ trouble.reason ++ ": " ++ Text.quoted path

end Fault

/-- The first surrogate of a text and those that follow it in a row, if there is any for which nothing
stands. -/
def Text.surrogates? (stands : CodePoint → Bool) (t : Text) : Option (Text × Nat) :=
  (t.findIdx? fun c => c.isSurrogate && !stands c).map fun i =>
    ((t.drop i).takeWhile CodePoint.isSurrogate, i)

namespace Decimal

/-- The numeral of an integer within the digit limit. -/
def ofInt? (i : Int) : Except Fault Text :=
  if writable i then .ok (ofInt i) else .error .tooManyDigits

/-- The number written by these digit values, within the digit limit. -/
def read (digits : List Nat) : Except Fault Nat :=
  if digits.length ≤ maxDigits then .ok (ofDigits digits)
  else .error (.numeralTooLong digits.length)

end Decimal

end ModuleScript
