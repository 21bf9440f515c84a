import ModuleScript.Program.Token
import ModuleScript.Report.Cause
import ModuleScript.Text.Digit

/-!
# Scanning

A source is cut into pieces from the left. A piece is a gap (a blank or a comment) or a lexeme, and
the longest lexeme is taken. Every code point moves the location on, so the location of a token is
that of its first code point.
-/

set_option autoImplicit false

namespace ModuleScript.Scan

def isBlank (c : CodePoint) : Bool := c == ' ' || c == '\t' || c == '\r'

def startsName (c : CodePoint) : Bool :=
  c.between 'A' 'Z' || c.between 'a' 'z' || c == '_'

def continuesName (c : CodePoint) : Bool := startsName c || c.between '0' '9'

/-- The longest beginning that continues a name, dots and further names included. -/
def nameTail : Text → Text
  | [] => []
  | c :: rest =>
    if continuesName c then c :: nameTail rest
    else if c = '.' then
      match rest with
      | d :: rest' => if startsName d then c :: d :: nameTail rest' else []
      | [] => []
    else []

def splitDots : Text → List Ident
  | [] => [[]]
  | c :: rest => if c = '.' then [] :: splitDots rest else Text.consPart c (splitDots rest)

def nameKind (lexeme : Text) : Token.Kind :=
  match splitDots lexeme with
  | [name] =>
    match Keyword.ofText? name with
    | some k => .keyword k
    | none => .identifier name
  | names => .dotted names

/-- The body of a literal up to its closing quote. A backslash takes the next code point with it; a
newline ends the search. -/
def literalBody (quote : CodePoint) : Text → Option Text
  | [] => none
  | c :: rest =>
    if c = quote then some []
    else if c = CodePoint.newline then none
    else if c = '\\' then
      match rest with
      | d :: rest' =>
        if d = CodePoint.newline then none else (literalBody quote rest').map (c :: d :: ·)
      | [] => none
    else (literalBody quote rest).map (c :: ·)

inductive Piece where
  | gap
  | token (kind : Token.Kind)
  | flaw (cause : Cause)
  | fault (f : Fault)

/-- The values of the digits at the beginning of a text. -/
def leadingDigits (t : Text) : List Nat :=
  (t.takeWhile CodePoint.isDigit).filterMap CodePoint.digit?

/-- The fraction behind a whole part: the digits after a point, if there are any. -/
def fraction? : Text → Option (List Nat)
  | c :: d :: rest => if c = '.' ∧ d.isDigit then some (leadingDigits (d :: rest)) else none
  | _ => none

def floatOf (whole fraction : List Nat) : Binary64 :=
  Binary64.ofRatio (Decimal.ofDigits (whole ++ fraction)) (Decimal.tenTo fraction.length)

/-- A numeral and the number of code points after its first. -/
def numeral (t : Text) : Piece × Nat :=
  let whole := leadingDigits t
  match fraction? (t.drop whole.length) with
  | some fraction => (.token (.float (floatOf whole fraction)), whole.length + fraction.length)
  | none =>
    match Decimal.read whole with
    | .ok n => (.token (.number n), whole.length - 1)
    | .error f => (.fault f, 0)

/-- A string or char literal and the number of code points after its quote. -/
def literal (quote : CodePoint) (rest : Text) : Piece × Nat :=
  match literalBody quote rest with
  | none => (.flaw (.illegalCharacter quote), 0)
  | some body =>
    match Escape.unescape body with
    | .error flaw => (.flaw (.badEscape flaw), 0)
    | .ok text =>
      if quote = '"' then (.token (.string text), body.length + 1)
      else
        match text with
        | [c] => (.token (.char c), body.length + 1)
        | _ => (.flaw (.notOneCharacter (quote :: body ++ [quote])), 0)

/-- The piece at the beginning of a text that is not empty, and the number of code points of the
piece after its first. -/
def piece (c : CodePoint) (rest : Text) : Piece × Nat :=
  if isBlank c then (.gap, 0)
  else if ("//" : Text).isPrefixOf (c :: rest) then
    (.gap, (rest.takeWhile (· != CodePoint.newline)).length)
  else if c.isDigit then numeral (c :: rest)
  else if c = '"' ∨ c = '\'' then literal c rest
  else if startsName c then
    let tail := nameTail rest
    (.token (nameKind (c :: tail)), tail.length)
  else if c = CodePoint.newline then
    (.token .newline, (rest.takeWhile (· == CodePoint.newline)).length)
  else
    match Mark.leading? (c :: rest) with
    | some m => (.token (.mark m), m.text.length - 1)
    | none => (.flaw (.illegalCharacter c), 0)

/-- The tokens from a location on, and why scanning stopped before the end, if it did. The first
`skip` code points belong to a piece that has been read already. -/
def tokensFrom (skip : Nat) (l : Location) : Text → List Token × Option Failure
  | [] => ([], none)
  | c :: rest =>
    match skip with
    | skip + 1 => tokensFrom skip (l.after c) rest
    | 0 =>
      match piece c rest with
      | (.gap, n) => tokensFrom n (l.after c) rest
      | (.token kind, n) =>
        let (tokens, stop) := tokensFrom n (l.after c) rest
        (⟨kind, l⟩ :: tokens, stop)
      | (.flaw cause, _) => ([], some (.report (cause.reportAt l)))
      | (.fault f, _) => ([], some (.fault f))

end ModuleScript.Scan

namespace ModuleScript

/-- The tokens of a source, newlines included, and why scanning stopped before its end. -/
def scan (file source : Text) : List Token × Option Failure :=
  Scan.tokensFrom 0 (Location.start file) source

end ModuleScript
