import ModuleScript.Text.Basic

/-!
# White space

The white space that trimming removes: the separators and the control characters of Unicode that
end lines or separate information, and the no-break spaces.
-/

set_option autoImplicit false

namespace ModuleScript

def CodePoint.blankRanges : List (Nat × Nat) := [
  (0x9, 0xD), (0x1C, 0x20), (0x85, 0x85), (0xA0, 0xA0), (0x1680, 0x1680), (0x2000, 0x200A),
  (0x2028, 0x2029), (0x202F, 0x202F), (0x205F, 0x205F), (0x3000, 0x3000)]

def CodePoint.isBlank (c : CodePoint) : Bool :=
  CodePoint.blankRanges.any fun r => r.1 ≤ c.val && c.val ≤ r.2

def Text.trimEnd (t : Text) : Text := Text.dropEndWhile CodePoint.isBlank t

def Text.trim (t : Text) : Text := Text.trimEnd (t.dropWhile CodePoint.isBlank)

end ModuleScript
