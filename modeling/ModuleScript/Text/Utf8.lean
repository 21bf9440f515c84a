import ModuleScript.Text.Basic

/-!
# UTF-8

The text of a sequence of octets, or `none` when the sequence is not well formed: no overlong form,
no surrogate, nothing beyond the last code point, no sequence cut short.
-/

set_option autoImplicit false

namespace ModuleScript.Utf8

def isTail (b : UInt8) : Bool := 0x80 ≤ b && b ≤ 0xBF

/-- Whether the second octet may follow the first of three or four. -/
def mayFollow (first second : UInt8) : Bool :=
  if first = 0xE0 then 0xA0 ≤ second && second ≤ 0xBF
  else if first = 0xED then 0x80 ≤ second && second ≤ 0x9F
  else if first = 0xF0 then 0x90 ≤ second && second ≤ 0xBF
  else if first = 0xF4 then 0x80 ≤ second && second ≤ 0x8F
  else isTail second

/-- Six bits more at the end of a number. -/
def extend (n : Nat) (b : UInt8) : Nat := n * 64 + (b.toNat - 0x80)

/-- Reads on after a beginning whose text is given backwards. -/
def decodeAfter (done : Text) : List UInt8 → Option Text
  | [] => some done.reverse
  | a :: rest =>
    if a < 0x80 then decodeAfter (Fin.ofNat 0x110000 a.toNat :: done) rest
    else if 0xC2 ≤ a && a ≤ 0xDF then
      match rest with
      | b :: rest =>
        if isTail b then decodeAfter (Fin.ofNat 0x110000 (extend (a.toNat - 0xC0) b) :: done) rest
        else none
      | [] => none
    else if 0xE0 ≤ a && a ≤ 0xEF then
      match rest with
      | b :: c :: rest =>
        if mayFollow a b && isTail c then
          decodeAfter (Fin.ofNat 0x110000 (extend (extend (a.toNat - 0xE0) b) c) :: done) rest
        else none
      | _ => none
    else if 0xF0 ≤ a && a ≤ 0xF4 then
      match rest with
      | b :: c :: d :: rest =>
        if mayFollow a b && isTail c && isTail d then
          decodeAfter
            (Fin.ofNat 0x110000 (extend (extend (extend (a.toNat - 0xF0) b) c) d) :: done) rest
        else none
      | _ => none
    else none

def decode (bytes : List UInt8) : Option Text := decodeAfter [] bytes

end ModuleScript.Utf8
