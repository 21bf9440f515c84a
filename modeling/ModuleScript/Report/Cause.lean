import ModuleScript.Report.Basic
import ModuleScript.Text.Escape

/-!
# Causes

Every error of the language has a cause; the cause decides the kind, the message and the notes of
the report.
-/

set_option autoImplicit false

namespace ModuleScript

inductive Cause where
  -- reading
  | illegalCharacter (c : CodePoint)
  | badEscape (flaw : Escape.Flaw)
  | notOneCharacter (lexeme : Text)
  | unexpected (token : Text)
  | unexpectedEnd
  | duplicateParameter
  | variationWithoutFunction (name : Ident)
  | declarationInBlock
  -- names
  | unbound (name : Ident)
  | uninitialized (name : Ident)
  | noMember (module : Text) (name : Ident)
  | privateMember (name : Ident) (module : Text)
  | notModule (walked : Text) (type : Text)
  -- operators and natives
  | cannotIterate (type : Text)
  | boolExpected (operator : Text) (type : Text)
  | undefinedOperator (operator : Text) (types : List Text)
  | cannotNegate (type : Text)
  | cannotTakeHead (type : Text)
  | cannotTakeTail (type : Text)
  | noTruthValue (type : Text)
  | textExpected (native : Text) (type : Text)
  | integerExpected (native : Text) (shown : Text)
  | listExpected (native : Text) (type : Text)
  | divisionByZero
  | moduloByZero
  | headOfEmpty
  | charOutOfRange (code : Text)
  | badSubstring (first last : Text) (length : Nat)
  -- functions
  | notCallable (type : Text)
  | arity (callee : Text) (expected : Text) (given : Nat)
  | noFunctionToVary (name : Ident) (type : Text)
  | duplicateVariant (name : Ident) (arity : Nat)
  | noArm (shown : Text)
  -- modules and files
  | moduleExists (module : Text) (source : Text)
  | publicAndPrivate (name : Ident) (module : Text)
  | notExported (path : Text) (name : Ident)
  | circularImport (chain : List Text)
  | cannotFind (path : Text) (resolved : Text)
  | recursionLimit (limit : Int)
  deriving DecidableEq, Repr

namespace Cause

def kind : Cause → ReportKind
  | illegalCharacter _ | badEscape _ | notOneCharacter _ | unexpected _ | unexpectedEnd
  | duplicateParameter | variationWithoutFunction _ | declarationInBlock => .parse
  | unbound _ | uninitialized _ | noMember _ _ => .unboundIdentifier
  | privateMember _ _ => .privateAccess
  | notModule _ _ | cannotIterate _ | boolExpected _ _ | undefinedOperator _ _ | cannotNegate _
  | cannotTakeHead _ | cannotTakeTail _ | noTruthValue _ | textExpected _ _ | integerExpected _ _
  | listExpected _ _ | noFunctionToVary _ _ => .typeMismatch
  | divisionByZero | moduloByZero => .divisionByZero
  | headOfEmpty | charOutOfRange _ | badSubstring _ _ _ => .invalidArgument
  | notCallable _ => .notCallable
  | arity _ _ _ => .arityMismatch
  | duplicateVariant _ _ | moduleExists _ _ | publicAndPrivate _ _ => .declaration
  | noArm _ => .noMatch
  | notExported _ _ | circularImport _ | cannotFind _ _ => .importFailure
  | recursionLimit _ => .recursionLimit

def message : Cause → Text
  | illegalCharacter c => "Illegal character '" ++ [c] ++ "'"
  | badEscape .dangling => "Unexpected end of literal after '\\'"
  | badEscape (.unknown c) => "Unknown escape sequence '\\" ++ [c] ++ "'"
  | notOneCharacter t => "Invalid character literal " ++ t
  | unexpected t => "Syntax error at '" ++ t ++ "'"
  | unexpectedEnd => "Syntax error at end of input"
  | duplicateParameter => "Duplicate parameter name"
  | variationWithoutFunction n => "'var " ++ n ++ "' must be given a function"
  | declarationInBlock => "'pub' and 'mod' declarations are not allowed inside a block"
  | unbound n => "Unbound identifier '" ++ n ++ "'"
  | uninitialized n => "'" ++ n ++ "' used before initialization"
  | noMember m n => "Module " ++ m ++ " has no member '" ++ n ++ "'"
  | privateMember n m => "'" ++ n ++ "' is private to module " ++ m
  | notModule w t => "'" ++ w ++ "' is a " ++ t ++ ", not a module"
  | cannotIterate t => "Cannot iterate over a value of type " ++ t
  | boolExpected o t => "Operator '" ++ o ++ "' expects Bool operands, got " ++ t
  | undefinedOperator o ts =>
    "Operator '" ++ o ++ "' is not defined for (" ++ Text.join ", " ts ++ ")"
  | cannotNegate t => "Cannot negate a value of type " ++ t
  | cannotTakeHead t => "Cannot take the head of a value of type " ++ t
  | cannotTakeTail t => "Cannot take the tail of a value of type " ++ t
  | noTruthValue t => "A value of type " ++ t ++ " has no truth value"
  | textExpected n t => n ++ " expects a Str, got " ++ t
  | integerExpected n s => n ++ " expects an integer, got " ++ s
  | listExpected n t => n ++ " expects a List, got " ++ t
  | divisionByZero => "Division by zero"
  | moduloByZero => "Modulo by zero"
  | headOfEmpty => "Cannot take the head of an empty list"
  | charOutOfRange c => "Char arithmetic out of range: " ++ c
  | badSubstring a b n =>
    "substr range [" ++ a ++ ", " ++ b ++ ") is out of bounds for a string of length " ++
      Decimal.ofNat n
  | notCallable t => "A value of type " ++ t ++ " is not callable"
  | arity c e n => c ++ " takes " ++ e ++ " argument(s), got " ++ Decimal.ofNat n
  | noFunctionToVary n t => "'var " ++ n ++ "' needs an existing function, found " ++ t
  | duplicateVariant n a =>
    "Function '" ++ n ++ "' already has a variation with arity " ++ Decimal.ofNat a
  | noArm s => "No match arm accepts the value " ++ s
  | moduleExists m s => "Module " ++ m ++ " is already declared in " ++ s
  | publicAndPrivate n m =>
    "Member '" ++ n ++ "' of module " ++ m ++ " is declared both pub and private"
  | notExported p n => "'" ++ p ++ "' does not export '" ++ n ++ "'"
  | circularImport chain => "Circular import detected: " ++ Text.join " -> " chain
  | cannotFind p _ => "Cannot find '" ++ p ++ "'"
  | recursionLimit _ => "Maximum recursion depth exceeded"

def notes : Cause → List Text
  | unexpected _ => ["Check syntax near this location"]
  | unexpectedEnd => ["Unexpected end of file"]
  | privateMember n m =>
    ["Declare it with 'pub let " ++ n ++ "' to use it outside " ++ m]
  | cannotFind _ r => ["Looked for " ++ r]
  | recursionLimit n =>
    ["Recursion limit is " ++ Decimal.ofInt n ++ "; raise it with --recursion-limit"]
  | _ => []

def report (c : Cause) : Report := { kind := c.kind, message := c.message, notes := c.notes }

def reportAt (c : Cause) (l : Location) : Report := { c.report with location := some l }

end Cause

end ModuleScript
