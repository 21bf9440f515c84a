/-!
# Code points and texts

A text is a finite sequence of code points, surrogates included, so that every length, index and
comparison counts code points. A string literal stands for its text wherever a text is expected.
-/

set_option autoImplicit false

namespace ModuleScript

/-- A code point, surrogates included. -/
abbrev CodePoint := Fin 0x110000

namespace CodePoint

theorem toNat_lt (c : Char) : c.toNat < 0x110000 := by
  have h : c.toNat.isValidChar := c.valid
  rcases h with h | h <;> omega

def ofChar (c : Char) : CodePoint := ⟨c.toNat, toNat_lt c⟩

instance : Coe Char CodePoint := ⟨ofChar⟩

/-- The code point with this number; null if there is none. -/
def ofNat (n : Nat) : CodePoint := if h : n < 0x110000 then ⟨n, h⟩ else ⟨0, by decide⟩

def null : CodePoint := ofNat 0

def isSurrogate (c : CodePoint) : Bool := 0xD800 ≤ c.val && c.val ≤ 0xDFFF

theorem ofChar_injective {a b : Char} (h : ofChar a = ofChar b) : a = b :=
  Char.toNat_inj.1 (Fin.mk.inj h)

def newline : CodePoint := '\n'

/-- Lies in the inclusive range of two characters. -/
def between (lo hi : Char) (c : CodePoint) : Bool :=
  lo.toNat ≤ c.val && c.val ≤ hi.toNat

end CodePoint

abbrev Text := List CodePoint

namespace Text

def ofString (s : String) : Text := s.toList.map CodePoint.ofChar

instance : Coe String Text := ⟨ofString⟩

def join (separator : Text) : List Text → Text
  | [] => []
  | [t] => t
  | t :: rest => t ++ separator ++ join separator rest

def consPart (c : CodePoint) : List Text → List Text
  | [] => [[c]]
  | part :: parts => (c :: part) :: parts

/-- Lexicographic order of code points; a proper beginning is smaller. -/
def less : Text → Text → Bool
  | [], [] => false
  | [], _ :: _ => true
  | _ :: _, [] => false
  | a :: s, b :: t => a.val < b.val || (a == b && less s t)

/-- Sorted by `less`; equal texts keep their order. -/
def sort (ts : List Text) : List Text := ts.mergeSort (fun a b => !less b a)

/-- Drops the longest end all of whose code points satisfy the test. -/
def dropEndWhile (p : CodePoint → Bool) (t : Text) : Text := (t.reverse.dropWhile p).reverse

end Text

/-- The name of a binding, a member, a parameter or a module. -/
abbrev Ident := Text

end ModuleScript
