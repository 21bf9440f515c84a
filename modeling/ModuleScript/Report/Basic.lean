import ModuleScript.Fault
import ModuleScript.Program.Location

/-!
# Reports

A report is an error of the language: its kind, its message, where it arose, the excerpt of the
source there, and notes.
-/

set_option autoImplicit false

namespace ModuleScript

inductive ReportKind where
  | general
  | parse
  | evaluation
  | unboundIdentifier
  | privateAccess
  | notCallable
  | typeMismatch
  | arityMismatch
  | declaration
  | invalidArgument
  | divisionByZero
  | noMatch
  | importFailure
  | recursionLimit
  deriving DecidableEq, Repr

namespace ReportKind

def label : ReportKind → Text
  | general => "RustScriptError"
  | parse => "ParseError"
  | evaluation => "EvalError"
  | unboundIdentifier => "UnboundIdentifier"
  | privateAccess => "PrivateAccessDenied"
  | notCallable => "NotCallable"
  | typeMismatch => "TypeMismatch"
  | arityMismatch => "ArityMismatch"
  | declaration => "DeclarationError"
  | invalidArgument => "InvalidArgument"
  | divisionByZero => "DivisionByZero"
  | noMatch => "MatchError"
  | importFailure => "ImportFailure"
  | recursionLimit => "RecursionLimitExceeded"

def all : List ReportKind :=
  [general, parse, evaluation, unboundIdentifier, privateAccess, notCallable, typeMismatch,
    arityMismatch, declaration, invalidArgument, divisionByZero, noMatch, importFailure,
    recursionLimit]

def ofLabel? (t : Text) : Option ReportKind := all.find? (·.label == t)

end ReportKind

structure Report where
  kind : ReportKind
  message : Text
  location : Option Location := none
  context : Option Text := none
  notes : List Text := []
  deriving DecidableEq, Repr

namespace Report

/-- Adds a location, with the excerpt there, to a report that has none yet. -/
def locate (r : Report) (l : Location) (context : Option Text) : Report :=
  match r.location with
  | some _ => r
  | none => { r with location := some l, context := context }

/-- The heading, then the excerpt and the notes, each under a title of its own. -/
def render (r : Report) : Text :=
  let place : Text := match r.location with
    | some l => l.text
    | none => "unknown location"
  let heading := r.kind.label ++ " at " ++ place ++ ": " ++ r.message
  let excerpt : List Text := match r.context with
    | some c => if c.isEmpty then [] else ["\nContext:", c]
    | none => []
  let notes : List Text :=
    if r.notes.isEmpty then [] else ("\nNotes:" : Text) :: r.notes.map ("  - " ++ ·)
  Text.join [CodePoint.newline] (heading :: excerpt ++ notes)

end Report

inductive Failure where
  | report (r : Report)
  | fault (f : Fault)
  /-- Evaluation is nested deeper than the limit allows. -/
  | tooDeep
  deriving DecidableEq, Repr

end ModuleScript
