import ModuleScript.Program.Scan

/-!
# Layout

A newline separates statements unless it stands inside parentheses or brackets, after a token that
cannot end a statement, or before a token that continues one. Of the newlines between two tokens at
most the first is kept.
-/

set_option autoImplicit false

namespace ModuleScript.Layout

/-- A newline after such a token never ends a statement. -/
def continuesAfter : Token.Kind → Bool
  | .newline => true
  | .keyword .trueWord | .keyword .falseWord => false
  | .keyword _ => true
  | .mark .rightParen | .mark .rightBracket | .mark .rightBrace => false
  | .mark _ => true
  | _ => false

/-- A line that starts with such a token continues the one before. -/
def continuesBefore : Token.Kind → Bool
  | .keyword .thenWord | .keyword .elseWord | .keyword .andWord => true
  | .mark m =>
    match m with
    | .minus | .caret | .dollar | .assign | .leftParen | .leftBracket | .leftBrace | .comma
    | .semicolon => false
    | _ => true
  | _ => false

/-- The mark that closes what a mark opens. -/
def closer? : Mark → Option Mark
  | .leftParen => some .rightParen
  | .leftBracket => some .rightBracket
  | .leftBrace => some .rightBrace
  | _ => none

/-- The closing marks still awaited after a token, innermost first. A closing mark that is not the
awaited one changes nothing. -/
def track (awaited : List Mark) : Token.Kind → List Mark
  | .mark m =>
    match closer? m with
    | some closing => closing :: awaited
    | none =>
      match awaited with
      | closing :: outer => if m = closing then outer else awaited
      | [] => []
  | _ => awaited

/-- Newlines count only at the top and directly inside braces. -/
def ignoresNewlines : List Mark → Bool
  | [] => false
  | closing :: _ => closing != .rightBrace

def upcoming (ts : List Token) : Option Token := ts.find? (·.kind != .newline)

/-- Whether a newline separates what comes before it from what comes after. -/
def separates (awaited : List Mark) (last : Option Token.Kind) (rest : List Token) : Bool :=
  !ignoresNewlines awaited &&
    (match last with
      | none => false
      | some kind => !continuesAfter kind) &&
    match upcoming rest with
    | none => false
    | some t => !continuesBefore t.kind

/-- The significant tokens that follow the token `last`. -/
def significant (awaited : List Mark) (last : Option Token.Kind) : List Token → List Token
  | [] => []
  | t :: rest =>
    if t.kind = .newline ∧ separates awaited last rest = false then significant awaited last rest
    else t :: significant (track awaited t.kind) (some t.kind) rest

end ModuleScript.Layout

namespace ModuleScript

/-- The significant tokens of a source, and why scanning stopped before its end. -/
def tokenize (file source : Text) : List Token × Option Failure :=
  let (tokens, stop) := scan file source
  (Layout.significant [] none tokens, stop)

end ModuleScript
