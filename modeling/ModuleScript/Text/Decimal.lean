import ModuleScript.Text.Basic

/-!
# Decimal numerals

Integers are written in base ten without leading zeros. Conversion between integers and text is
refused beyond 4300 digits in both directions; on reading, leading zeros count and a sign does not.
-/

set_option autoImplicit false

namespace ModuleScript.Decimal

def ofNat (n : Nat) : Text := (Nat.toDigits 10 n).map CodePoint.ofChar

def ofInt : Int → Text
  | .ofNat n => ofNat n
  | .negSucc n => '-' :: ofNat (n + 1)

/-- The most digits an integer may have when it is converted to or from text. -/
def maxDigits : Nat := 4300

def tenTo (n : Nat) : Nat := Nat.pow 10 n

def writable (i : Int) : Bool := i.natAbs < tenTo maxDigits

/-- The number whose digits, most significant first, are given by their values. -/
def ofDigits (ds : List Nat) : Nat := ds.foldl (fun n d => 10 * n + d) 0

/-- Written to the right of a field of the given width. -/
def padded (width n : Nat) : Text :=
  let t := ofNat n
  List.replicate (width - t.length) (' ' : CodePoint) ++ t

end ModuleScript.Decimal
