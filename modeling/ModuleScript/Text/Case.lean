import ModuleScript.Text.Basic
import ModuleScript.Text.CaseTable

/-!
# Upper and lower case

Full case mapping: one code point may become several. A capital sigma becomes a final sigma at the
end of a word: the nearest code point before it that is not case-ignorable is cased, and the nearest
one after it is not.
-/

set_option autoImplicit false

namespace ModuleScript

namespace CodePoint

/-- Where the runs take a code point; `none` if they leave it as it is. -/
def shifted? (runs : Array (Nat × Nat × Nat × Int)) (c : CodePoint) : Option CodePoint :=
  (runs.find? fun (first, last, step, _) =>
      first ≤ c.val && c.val ≤ last && (c.val - first) % step == 0).map
    fun (_, _, _, delta) => Fin.ofNat 0x110000 (c.val + delta).toNat

def inRanges (ranges : Array (Nat × Nat)) (c : CodePoint) : Bool :=
  ranges.any fun r => r.1 ≤ c.val && c.val ≤ r.2

def isCaseIgnorable (c : CodePoint) : Bool := inRanges CaseTable.ignorableRanges c

/-- Meant for code points that are not case-ignorable. -/
def isCased (c : CodePoint) : Bool := inRanges CaseTable.casedRanges c

def upper (c : CodePoint) : Text :=
  match CaseTable.upperLong.find? (·.1 == c.val) with
  | some (_, form) => form.map (Fin.ofNat 0x110000)
  | none => [(shifted? CaseTable.upperRuns c).getD c]

/-- The lower case form away from the end of a word; a dotted capital I keeps its dot. -/
def lower (c : CodePoint) : Text :=
  if c.val = 0x130 then [0x69, 0x307] else [(shifted? CaseTable.lowerRuns c).getD c]

end CodePoint

namespace Text

def upper (t : Text) : Text := t.flatMap CodePoint.upper

/-- The first code point that is not case-ignorable exists and is cased. -/
def meetsCased (t : Text) : Bool :=
  match t.dropWhile CodePoint.isCaseIgnorable with
  | c :: _ => c.isCased
  | [] => false

/-- Lower case of a text whose beginning, given backwards, has been converted already. -/
def lowerAfter (before : Text) : Text → Text
  | [] => []
  | c :: rest =>
    let form : Text :=
      if c.val = 0x3A3 then [if meetsCased before && !meetsCased rest then 0x3C2 else 0x3C3]
      else c.lower
    form ++ lowerAfter (c :: before) rest

def lower (t : Text) : Text := lowerAfter [] t

end Text

end ModuleScript
