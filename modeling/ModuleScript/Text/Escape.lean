import ModuleScript.Text.Digit

/-!
# Backslash escapes

The escapes of string and char literals. `unescape` reads units from the left: a plain code point,
a backslash with a code, or `\u` with four hexadecimal digits. `escape` writes each code point that
has a code as its escape.
-/

set_option autoImplicit false

namespace ModuleScript.Escape

def codes : List (CodePoint × CodePoint) :=
  [('0', .ofNat 0), ('a', .ofNat 7), ('b', .ofNat 8), ('t', .ofNat 9), ('n', .ofNat 10),
    ('v', .ofNat 11), ('f', .ofNat 12), ('r', .ofNat 13), ('e', .ofNat 27), ('\\', '\\'),
    ('\'', '\''), ('"', '"')]

def meaning? (code : CodePoint) : Option CodePoint :=
  (codes.find? (·.1 == code)).map (·.2)

def code? (c : CodePoint) : Option CodePoint :=
  (codes.find? (·.2 == c)).map (·.1)

inductive Flaw where
  /-- A backslash with nothing after it. -/
  | dangling
  /-- A backslash before a code point that starts no escape. -/
  | unknown (code : CodePoint)
  deriving DecidableEq, Repr

/-- The code point named by four hexadecimal digits. -/
def ofHex (a b c d : CodePoint) : CodePoint :=
  CodePoint.ofNat (((a.hexValue * 16 + b.hexValue) * 16 + c.hexValue) * 16 + d.hexValue)

/-- The reading of a backslash and a code, given the reading of what follows. -/
def decoded (code : CodePoint) (rest : Except Flaw Text) : Except Flaw Text :=
  match meaning? code with
  | some m => rest.map (m :: ·)
  | none => .error (.unknown code)

def unescape : Text → Except Flaw Text
  | [] => .ok []
  | [c] => if c = '\\' then .error .dangling else .ok [c]
  | c :: code :: rest =>
    if c = '\\' then
      match rest with
      | h₁ :: h₂ :: h₃ :: h₄ :: tail =>
        if code = 'u' ∧ [h₁, h₂, h₃, h₄].all CodePoint.isHexDigit then
          (unescape tail).map (ofHex h₁ h₂ h₃ h₄ :: ·)
        else decoded code (unescape (h₁ :: h₂ :: h₃ :: h₄ :: tail))
      | short => decoded code (unescape short)
    else (unescape (code :: rest)).map (c :: ·)

def escape (t : Text) : Text :=
  t.flatMap fun c => match code? c with
    | some code => ['\\', code]
    | none => [c]

end ModuleScript.Escape
