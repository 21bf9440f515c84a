import ModuleScript.Text.Blank
import ModuleScript.Text.Decimal
import ModuleScript.Text.Lines

/-!
# Source excerpts

An excerpt shows the lines around a line of a text, each with its number and without the white space
at its end; the line itself is marked.
-/

set_option autoImplicit false

namespace ModuleScript

def Excerpt.radius : Int := 2

def Excerpt.row (marked : Int) (number : Nat) (line : Text) : Text :=
  (if (number : Int) = marked then "> " else "  " : Text) ++
    Decimal.padded 4 number ++ " | " ++ Text.trimEnd line

/-- The numbered lines from `line - radius` to `line + radius`, as far as they exist. -/
def Excerpt.rows (contents : Text) (line radius : Int) : List Text :=
  let lines := Text.lines contents
  let first := (line - radius - 1).toNat
  let stop := (line + radius).toNat
  ((lines.take stop).zipIdx.drop first).map fun (l, i) => Excerpt.row line (i + 1) l

/-- The excerpt around a line; `none` if no line of the text is that near. -/
def excerpt (contents : Text) (line radius : Int) : Option Text :=
  match Excerpt.rows contents line radius with
  | [] => none
  | rows => some (Text.join [CodePoint.newline] rows)

end ModuleScript
