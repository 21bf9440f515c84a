import ModuleScript.Number.Shortest
import ModuleScript.Program.Location
import ModuleScript.Program.Operator
import ModuleScript.Text.Quoted

/-!
# Tokens

A token is a lexeme's meaning and the location of its first code point.
-/

set_option autoImplicit false

namespace ModuleScript

inductive Keyword where
  | letWord
  | varWord
  | fnWord
  | ifWord
  | thenWord
  | elseWord
  | matchWord
  | andWord
  | modWord
  | pubWord
  | impWord
  | fromWord
  | trueWord
  | falseWord
  | forWord
  | inWord
  deriving DecidableEq, Repr

namespace Keyword

def text : Keyword → Text
  | letWord => "let"
  | varWord => "var"
  | fnWord => "fn"
  | ifWord => "if"
  | thenWord => "then"
  | elseWord => "else"
  | matchWord => "match"
  | andWord => "and"
  | modWord => "mod"
  | pubWord => "pub"
  | impWord => "imp"
  | fromWord => "from"
  | trueWord => "true"
  | falseWord => "false"
  | forWord => "for"
  | inWord => "in"

def all : List Keyword :=
  [letWord, varWord, fnWord, ifWord, thenWord, elseWord, matchWord, andWord, modWord, pubWord,
    impWord, fromWord, trueWord, falseWord, forWord, inWord]

def ofText? (t : Text) : Option Keyword := all.find? (·.text == t)

end Keyword

/-- Punctuation that is not a binary operator only. -/
inductive Mark where
  | plus
  | minus
  | times
  | slash
  | percent
  | less
  | greater
  | equal
  | notEqual
  | andAnd
  | orOr
  | caret
  | dollar
  | assign
  | arrow
  | dots
  | bar
  | leftParen
  | rightParen
  | leftBracket
  | rightBracket
  | leftBrace
  | rightBrace
  | comma
  | semicolon
  deriving DecidableEq, Repr

namespace Mark

def text : Mark → Text
  | plus => "+"
  | minus => "-"
  | times => "*"
  | slash => "/"
  | percent => "%"
  | less => "<"
  | greater => ">"
  | equal => "=="
  | notEqual => "!="
  | andAnd => "&&"
  | orOr => "||"
  | caret => "^"
  | dollar => "$"
  | assign => "="
  | arrow => "=>"
  | dots => ".."
  | bar => "|"
  | leftParen => "("
  | rightParen => ")"
  | leftBracket => "["
  | rightBracket => "]"
  | leftBrace => "\x7b"
  | rightBrace => "\x7d"
  | comma => ","
  | semicolon => ";"

/-- The marks, those of two code points first, so that the first that fits is the longest. -/
def all : List Mark :=
  [orOr, dots, equal, notEqual, andAnd, arrow, plus, minus, times, slash, percent, less, greater,
    caret, dollar, assign, bar, leftParen, rightParen, leftBracket, rightBracket, leftBrace,
    rightBrace, comma, semicolon]

def leading? (t : Text) : Option Mark := all.find? (·.text.isPrefixOf t)

def binary? : Mark → Option BinaryOp
  | orOr => some .or
  | andAnd => some .and
  | equal => some .equal
  | notEqual => some .notEqual
  | less => some .less
  | greater => some .greater
  | plus => some .add
  | minus => some .subtract
  | times => some .multiply
  | slash => some .divide
  | percent => some .modulo
  | _ => none

def unary? : Mark → Option UnaryOp
  | minus => some .negate
  | caret => some .head
  | dollar => some .tail
  | _ => none

end Mark

inductive Token.Kind where
  | identifier (name : Ident)
  | dotted (names : List Ident)
  | number (n : Nat)
  | float (x : Binary64)
  | string (t : Text)
  | char (c : CodePoint)
  | keyword (k : Keyword)
  | mark (m : Mark)
  | newline
  deriving DecidableEq, Repr

structure Token where
  kind : Token.Kind
  location : Location
  deriving DecidableEq, Repr

/-- How a token is shown in an error: literals by their meaning, dotted names one by one. -/
def Token.text (t : Token) : Text :=
  match t.kind with
  | .identifier n => n
  | .dotted ns => "(" ++ Text.join ", " (ns.map Text.quoted) ++ ")"
  | .number n => Decimal.ofNat n
  | .float x => x.text
  | .string s => s
  | .char c => [c]
  | .keyword k => k.text
  | .mark m => m.text
  | .newline => "\\n"

end ModuleScript
