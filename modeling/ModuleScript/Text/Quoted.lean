import ModuleScript.Text.Basic
import ModuleScript.Text.Printable

/-!
# Quoted texts

The form in which outlines show a text: between single quotes, or between double quotes when it
holds a single quote and no double quote. What is not printable is written as an escape.
-/

set_option autoImplicit false

namespace ModuleScript.Text

/-- Lower case hexadecimal digits, padded with zeros to a width. -/
def hex (width n : Nat) : Text :=
  let ds := (Nat.toDigits 16 n).map CodePoint.ofChar
  List.replicate (width - ds.length) ('0' : CodePoint) ++ ds

def single : CodePoint := '\''

def double : CodePoint := '"'

def quotedPoint (quote c : CodePoint) : Text :=
  if c = quote ∨ c = '\\' then ['\\', c]
  else if c = '\t' then "\\t"
  else if c = '\n' then "\\n"
  else if c = '\r' then "\\r"
  else if c.isPrintable then [c]
  else if c.val < 0x100 then "\\x" ++ hex 2 c.val
  else if c.val < 0x10000 then "\\u" ++ hex 4 c.val
  else "\\U" ++ hex 8 c.val

def quoted (t : Text) : Text :=
  let quote : CodePoint := if single ∈ t ∧ double ∉ t then double else single
  quote :: t.flatMap (quotedPoint quote) ++ [quote]

/-- Quoted texts in brackets, separated by commas. -/
def quotedList (ts : List Text) : Text := "[" ++ join ", " (ts.map quoted) ++ "]"

end ModuleScript.Text
