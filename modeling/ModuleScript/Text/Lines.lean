import ModuleScript.Text.Basic

/-!
# Lines

Three readings of line ends: files are read with every carriage return, alone or before a newline,
taken as a newline; input is taken up to and with the next newline; excerpts split at every line
boundary of Unicode.
-/

set_option autoImplicit false

namespace ModuleScript.Text

/-- Every carriage return, with the newline after it if there is one, becomes a newline. -/
def normalizeNewlines : Text → Text
  | [] => []
  | c :: rest =>
    if c = '\r' then
      match rest with
      | [] => ['\n']
      | d :: rest' =>
        if d = '\n' then '\n' :: normalizeNewlines rest' else '\n' :: normalizeNewlines (d :: rest')
    else c :: normalizeNewlines rest

def splitLine (t : Text) : Text × Text :=
  let line := t.takeWhile (· != CodePoint.newline)
  match t.drop line.length with
  | [] => (line, [])
  | newline :: rest => (line ++ [newline], rest)

/-- Line boundaries; a carriage return with a newline after it is one boundary. -/
def isBoundary (c : CodePoint) : Bool :=
  (0x0A ≤ c.val && c.val ≤ 0x0D) || (0x1C ≤ c.val && c.val ≤ 0x1E) ||
    c.val == 0x85 || c.val == 0x2028 || c.val == 0x2029

/-- The lines without their boundaries; a boundary at the end starts no further line. -/
def lines : Text → List Text
  | [] => []
  | c :: rest =>
    if isBoundary c then
      match rest with
      | [] => [[]]
      | d :: rest' => if c = '\r' ∧ d = '\n' then [] :: lines rest' else [] :: lines (d :: rest')
    else consPart c (lines rest)

end ModuleScript.Text
