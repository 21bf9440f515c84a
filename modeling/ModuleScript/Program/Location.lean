import ModuleScript.Text.Decimal

/-!
# Locations

A location names a line and a column, both from one, of a source.
-/

set_option autoImplicit false

namespace ModuleScript

structure Location where
  file : Text
  line : Nat
  column : Nat
  deriving DecidableEq, Repr

namespace Location

def start (file : Text) : Location := ⟨file, 1, 1⟩

def after (l : Location) (c : CodePoint) : Location :=
  if c = CodePoint.newline then ⟨l.file, l.line + 1, 1⟩ else ⟨l.file, l.line, l.column + 1⟩

def text (l : Location) : Text :=
  l.file ++ ":" ++ Decimal.ofNat l.line ++ ":" ++ Decimal.ofNat l.column

end Location

end ModuleScript
