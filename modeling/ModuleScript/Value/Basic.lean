import ModuleScript.Program.Expr
import ModuleScript.Store.Visibility

/-!
# Values

Values never change once made. A text behaves as a list of chars, and a list made of chars only is
represented as a text. Functions and modules are compared by identity.
-/

set_option autoImplicit false

namespace ModuleScript

abbrev FrameId := Nat

abbrev RecordId := Nat

/-- A frame and the frames around it, innermost first. -/
structure Scope where
  frame : FrameId
  outer : List FrameId
  deriving DecidableEq, Repr

namespace Scope

def chain (s : Scope) : List FrameId := s.frame :: s.outer

def push (s : Scope) (id : FrameId) : Scope := ⟨id, s.chain⟩

end Scope

/-- One arity of a function: parameters, body, and the scope and module it was written in. -/
structure Variant where
  params : List Ident
  body : Expr
  scope : Scope
  module : Option ModulePath

def Variant.arity (v : Variant) : Nat := v.params.length

/-- A function made by a lambda. Functions made at different times differ. -/
structure Closure where
  identity : Nat
  name : Option Ident
  variants : List Variant

namespace Closure

def variant? (c : Closure) (arity : Nat) : Option Variant :=
  c.variants.find? (·.arity == arity)

def arities (c : Closure) : List Nat := (c.variants.map Variant.arity).mergeSort

end Closure

inductive Native where
  | print
  | println
  | input
  | typeof
  | upper
  | lower
  | substr
  | parseVal
  | parseBool
  | range
  | fmap
  | filter
  | fold
  | reverse
  | seq
  deriving DecidableEq, Repr

namespace Native

def name : Native → Ident
  | print => "print"
  | println => "println"
  | input => "input"
  | typeof => "typeof"
  | upper => "upper"
  | lower => "lower"
  | substr => "substr"
  | parseVal => "parseVal"
  | parseBool => "parseBool"
  | range => "range"
  | fmap => "fmap"
  | filter => "filter"
  | fold => "fold"
  | reverse => "reverse"
  | seq => "seq"

/-- The number of arguments; `none` if any number will do. -/
def arity : Native → Option Nat
  | print | println => none
  | input | typeof | upper | lower | parseVal | parseBool | reverse | seq => some 1
  | range | fmap | filter => some 2
  | substr | fold => some 3

def all : List Native :=
  [print, println, input, typeof, upper, lower, substr, parseVal, parseBool, range, fmap, filter,
    fold, reverse, seq]

end Native

inductive Value where
  | number (n : Number)
  | text (t : Text)
  | char (c : CodePoint)
  | bool (b : Bool)
  | unit
  | list (items : List Value)
  | closure (c : Closure)
  | native (n : Native)
  | module (id : RecordId) (path : ModulePath)

instance : Inhabited Value := ⟨.unit⟩

namespace Value

def ofConstant : Constant → Value
  | .number n => number n
  | .string t => text t
  | .char c => char c
  | .bool b => bool b

def int (i : Int) : Value := number (.int i)

def typeName : Value → Text
  | number _ => "Number"
  | text _ => "Str"
  | char _ => "Char"
  | bool _ => "Bool"
  | unit => "Unit"
  | list _ => "List"
  | closure _ | native _ => "Lambda"
  | module _ _ => "Module"

/-- The chars of a list that holds nothing else. -/
def chars? : List Value → Option Text
  | [] => some []
  | char c :: rest => (chars? rest).map (c :: ·)
  | _ :: _ => none

/-- The value of a list: a text if it holds chars only and at least one. -/
def ofItems (items : List Value) : Value :=
  match chars? items with
  | some (c :: t) => text (c :: t)
  | _ => list items

/-- The elements of a list or text. -/
def items? : Value → Option (List Value)
  | text t => some (t.map char)
  | list items => some items
  | _ => none

mutual

/-- Structural equality; values of different kinds are never equal. -/
def same : Value → Value → Bool
  | number a, number b => a.same b
  | text a, text b => a == b
  | char a, char b => a == b
  | bool a, bool b => a == b
  | unit, unit => true
  | list as, list bs => sameItems as bs
  | closure a, closure b => a.identity == b.identity
  | native a, native b => a == b
  | module a _, module b _ => a == b
  | _, _ => false

def sameItems : List Value → List Value → Bool
  | [], [] => true
  | a :: as, b :: bs => same a b && sameItems as bs
  | _, _ => false

end

end Value

end ModuleScript
