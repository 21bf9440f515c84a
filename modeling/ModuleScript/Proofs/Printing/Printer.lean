import ModuleScript.Program.Expr
import ModuleScript.Program.Scan
import ModuleScript.Value.Display

/-!
# Printed programs

A program is written with every expression that is part of another in parentheses and with
semicolons between statements. Expressions that stand as statements may be in parentheses or not.
-/

set_option autoImplicit false

namespace ModuleScript

/-! ## Trees without locations -/

def Location.erased : Location := ⟨[], 0, 0⟩

mutual

/-- The tree with all its locations erased. -/
def Expr.bare : Expr → Expr
  | .constant _ c => .constant .erased c
  | .unit _ => .unit .erased
  | .name _ n => .name .erased n
  | .dotted _ names => .dotted .erased names
  | .list _ es => .list .erased (Expr.bares es)
  | .range _ a b => .range .erased a.bare b.bare
  | .comprehension _ e x b c => .comprehension .erased e.bare x b.bare (Expr.bareOption c)
  | .unary _ op e => .unary .erased op e.bare
  | .binary _ op a b => .binary .erased op a.bare b.bare
  | .binding _ n e => .binding .erased n e.bare
  | .lambda _ n ps e => .lambda .erased n ps e.bare
  | .call _ f es => .call .erased f.bare (Expr.bares es)
  | .cond _ a b c => .cond .erased a.bare b.bare c.bare
  | .select _ e arms => .select .erased e.bare (Arm.bares arms)
  | .block _ ss => .block .erased (Stmt.bares ss)
  | .sequence _ es => .sequence .erased (Expr.bares es)

def Expr.bares : List Expr → List Expr
  | [] => []
  | e :: es => e.bare :: Expr.bares es

def Expr.bareOption : Option Expr → Option Expr
  | none => none
  | some e => some e.bare

def Arm.bare : Arm → Arm
  | .mk _ x guard e => .mk .erased x (Expr.bareOption guard) e.bare

def Arm.bares : List Arm → List Arm
  | [] => []
  | a :: arms => a.bare :: Arm.bares arms

def Stmt.bare : Stmt → Stmt
  | .expr e => .expr e.bare
  | .publicBinding _ n e => .publicBinding .erased n e.bare
  | .variation _ n _ ps e => .variation .erased n .erased ps e.bare
  | .module _ isPublic n ss => .module .erased isPublic n (Stmt.bares ss)
  | .imports _ ns path => .imports .erased ns path

def Stmt.bares : List Stmt → List Stmt
  | [] => []
  | s :: ss => s.bare :: Stmt.bares ss

end

/-! ## Tokens of a program -/

namespace Token.Kind

def separated (separator : Token.Kind) : List (List Token.Kind) → List Token.Kind
  | [] => []
  | [ks] => ks
  | ks :: rest => ks ++ separator :: separated separator rest

def grouped (ks : List Token.Kind) : List Token.Kind :=
  .mark .leftParen :: (ks ++ [.mark .rightParen])

def ofNames (names : List Ident) : List Token.Kind :=
  separated (.mark .comma) (names.map fun n => [.identifier n])

end Token.Kind

namespace BinaryOp

def mark : BinaryOp → Mark
  | or => .orOr
  | and => .andAnd
  | equal => .equal
  | notEqual => .notEqual
  | less => .less
  | greater => .greater
  | add => .plus
  | subtract => .minus
  | multiply => .times
  | divide => .slash
  | modulo => .percent

end BinaryOp

def UnaryOp.mark : UnaryOp → Mark
  | negate => .minus
  | head => .caret
  | tail => .dollar

def Constant.kind : Constant → Token.Kind
  | .number (.int i) => .number i.toNat
  | .number (.float x) => .float x
  | .string t => .string t
  | .char c => .char c
  | .bool b => .keyword (if b then .trueWord else .falseWord)

section

open Token.Kind

variable (enclosed : Bool)

mutual

/-- The kinds of the tokens that an expression is written with. -/
def Expr.kinds : Expr → List Token.Kind
  | .constant _ c => [c.kind]
  | .unit _ => [.mark .leftParen, .mark .rightParen]
  | .name _ n => [.identifier n]
  | .dotted _ names => [.dotted names]
  | .list _ es =>
    .mark .leftBracket :: (separated (.mark .comma) (Expr.groups es) ++ [.mark .rightBracket])
  | .range _ a b =>
    .mark .leftBracket :: (grouped a.kinds ++ .mark .dots :: (grouped b.kinds ++
      [.mark .rightBracket]))
  | .comprehension _ e x b c =>
    .mark .leftBracket :: (grouped e.kinds ++ .keyword .forWord :: .identifier x ::
      .keyword .inWord :: (grouped b.kinds ++ (Expr.test .ifWord c ++ [.mark .rightBracket])))
  | .unary _ op e => .mark op.mark :: grouped e.kinds
  | .binary _ op a b => grouped a.kinds ++ .mark op.mark :: grouped b.kinds
  | .binding _ n e => .keyword .letWord :: .identifier n :: .mark .assign :: grouped e.kinds
  | .lambda _ _ ps e =>
    .keyword .fnWord :: (grouped (ofNames ps) ++ .mark .arrow :: grouped e.kinds)
  | .call _ f es => grouped f.kinds ++ grouped (separated (.mark .comma) (Expr.groups es))
  | .cond _ a b c =>
    .keyword .ifWord :: (grouped a.kinds ++ .keyword .thenWord :: (grouped b.kinds ++
      .keyword .elseWord :: grouped c.kinds))
  | .select _ e arms => .keyword .matchWord :: (grouped e.kinds ++ Arm.allKinds arms)
  | .block _ ss =>
    .mark .leftBrace :: (separated (.mark .semicolon) (Stmt.allKinds ss) ++ [.mark .rightBrace])
  | .sequence _ es =>
    .identifier "seq" :: grouped (.mark .leftBracket ::
      (separated (.mark .comma) (Expr.groups es) ++ [.mark .rightBracket]))

def Expr.groups : List Expr → List (List Token.Kind)
  | [] => []
  | e :: es => grouped e.kinds :: Expr.groups es

/-- A keyword and a condition, if there is one. -/
def Expr.test (k : Keyword) : Option Expr → List Token.Kind
  | none => []
  | some e => .keyword k :: grouped e.kinds

def Arm.kinds : Arm → List Token.Kind
  | .mk _ x guard e =>
    .mark .bar :: .identifier x :: (Expr.test .andWord guard ++
      .keyword .thenWord :: grouped e.kinds)

def Arm.allKinds : List Arm → List Token.Kind
  | [] => []
  | a :: arms => a.kinds ++ Arm.allKinds arms

def Stmt.kinds : Stmt → List Token.Kind
  | .expr e => if enclosed then grouped e.kinds else e.kinds
  | .publicBinding _ n e =>
    .keyword .pubWord :: .keyword .letWord :: .identifier n :: .mark .assign :: grouped e.kinds
  | .variation _ n _ ps e =>
    .keyword .varWord :: .identifier n :: .mark .assign :: grouped (.keyword .fnWord ::
      (grouped (ofNames ps) ++ .mark .arrow :: grouped e.kinds))
  | .module _ isPublic n ss =>
    (if isPublic then [.keyword .pubWord] else []) ++ .keyword .modWord :: .identifier n ::
      .mark .leftBrace :: (separated (.mark .semicolon) (Stmt.allKinds ss) ++ [.mark .rightBrace])
  | .imports _ ns path =>
    .keyword .impWord :: (ofNames ns ++ [.keyword .fromWord, .string path])

def Stmt.allKinds : List Stmt → List (List Token.Kind)
  | [] => []
  | s :: ss => s.kinds :: Stmt.allKinds ss

end

def Program.kinds (p : Program) : List Token.Kind :=
  separated (.mark .semicolon) (Stmt.allKinds enclosed p)

end

/-! ## The text of a program -/

/-- The text that a token of a kind is scanned from. -/
def Token.Kind.spelling : Token.Kind → Text
  | .identifier n => n
  | .dotted names => Text.join "." names
  | .number n => Decimal.ofNat n
  | .float x => x.text
  | .string t => Value.enclosed '"' t
  | .char c => Value.enclosed '\'' [c]
  | .keyword k => k.text
  | .mark m => m.text
  | .newline => [CodePoint.newline]

def Token.Kind.spaced (ks : List Token.Kind) : Text := ks.flatMap fun k => k.spelling ++ " "

/-- The text of a program with a blank after every token. -/
def Program.print (enclosed : Bool) (p : Program) : Text := Token.Kind.spaced (p.kinds enclosed)

/-! ## Programs that can be printed -/

def Scan.isName : Text → Bool
  | [] => false
  | c :: t => startsName c && t.all continuesName

def Scan.isIdentifier (n : Ident) : Bool := isName n && (Keyword.ofText? n).isNone

/-- What a reader makes of sources without floats. A lambda has a name exactly where it is the
initializer of a binding, and then that of the binding. A call of the name `seq` on one list literal
is a sequence and not a call. -/
inductive Printable : Stmt → Prop where
  | int {l : Location} {n : Nat} : Decimal.writable n = true →
    Printable (.expr (.constant l (.number (.int n))))
  | string (l : Location) (t : Text) : Printable (.expr (.constant l (.string t)))
  | char (l : Location) (c : CodePoint) : Printable (.expr (.constant l (.char c)))
  | bool (l : Location) (b : Bool) : Printable (.expr (.constant l (.bool b)))
  | unit (l : Location) : Printable (.expr (.unit l))
  | name {l : Location} {n : Ident} : Scan.isIdentifier n = true → Printable (.expr (.name l n))
  | dotted {l : Location} {names : List Ident} : 2 ≤ names.length →
    (∀ n ∈ names, Scan.isName n = true) → Printable (.expr (.dotted l names))
  | list {l : Location} {es : List Expr} : (∀ e ∈ es, Printable (.expr e)) →
    Printable (.expr (.list l es))
  | range {l : Location} {a b : Expr} : Printable (.expr a) → Printable (.expr b) →
    Printable (.expr (.range l a b))
  | comprehension {l : Location} {e b : Expr} {x : Ident} {o : Option Expr} :
    Scan.isIdentifier x = true → Printable (.expr e) → Printable (.expr b) →
    (∀ c ∈ o, Printable (.expr c)) → Printable (.expr (.comprehension l e x b o))
  | unary {l : Location} {op : UnaryOp} {e : Expr} : Printable (.expr e) →
    Printable (.expr (.unary l op e))
  | binary {l : Location} {op : BinaryOp} {a b : Expr} : Printable (.expr a) →
    Printable (.expr b) → Printable (.expr (.binary l op a b))
  | binding {l : Location} {n : Ident} {e : Expr} : Scan.isIdentifier n = true →
    Printable (.expr e) → Printable (.expr (.binding l n (e.named n)))
  | lambda {l : Location} {ps : List Ident} {e : Expr} : ps.Nodup →
    (∀ n ∈ ps, Scan.isIdentifier n = true) → Printable (.expr e) →
    Printable (.expr (.lambda l none ps e))
  | call {l : Location} {f : Expr} {es : List Expr} : Printable (.expr f) →
    (∀ e ∈ es, Printable (.expr e)) →
    (∀ l l' elements, f = .name l "seq" → es ≠ [.list l' elements]) →
    Printable (.expr (.call l f es))
  | cond {l : Location} {a b c : Expr} : Printable (.expr a) → Printable (.expr b) →
    Printable (.expr c) → Printable (.expr (.cond l a b c))
  | select {l : Location} {e : Expr} {arms : List Arm} : Printable (.expr e) → arms ≠ [] →
    (∀ l x o b, .mk l x o b ∈ arms → Scan.isIdentifier x = true) →
    (∀ l x g b, .mk l x (some g) b ∈ arms → Printable (.expr g)) →
    (∀ l x o b, .mk l x o b ∈ arms → Printable (.expr b)) →
    Printable (.expr (.select l e arms))
  | block {l : Location} {ss : List Stmt} : (∀ s ∈ ss, s.isDeclaration = false) →
    (∀ s ∈ ss, Printable s) → Printable (.expr (.block l ss))
  | sequence {l : Location} {es : List Expr} : (∀ e ∈ es, Printable (.expr e)) →
    Printable (.expr (.sequence l es))
  | publicBinding {l : Location} {n : Ident} {e : Expr} : Scan.isIdentifier n = true →
    Printable (.expr e) → Printable (.publicBinding l n (e.named n))
  | variation {l l' : Location} {n : Ident} {ps : List Ident} {e : Expr} :
    Scan.isIdentifier n = true → Printable (.expr (.lambda l' none ps e)) →
    Printable (.variation l n l' ps e)
  | module {l : Location} {isPublic : Bool} {n : Ident} {ss : List Stmt} :
    Scan.isIdentifier n = true → (∀ s ∈ ss, Printable s) → Printable (.module l isPublic n ss)
  | imports {l : Location} {ns : List Ident} {path : Text} : ns ≠ [] →
    (∀ n ∈ ns, Scan.isIdentifier n = true) → Printable (.imports l ns path)

/-! ## Trees without locations, part by part -/

namespace Expr

@[simp] theorem bares_eq_map (es : List Expr) : bares es = es.map bare := by
  induction es with
  | nil => rfl
  | cons e es ih => rw [bares, ih, List.map_cons]

@[simp] theorem bareOption_eq_map (o : Option Expr) : bareOption o = o.map bare := by
  cases o <;> rfl

theorem bare_named (n : Ident) (e : Expr) : (e.named n).bare = e.bare.named n := by
  cases e with
  | lambda l o ps body => cases o <;> rfl
  | _ => rfl

theorem kinds_named (w : Bool) (n : Ident) (e : Expr) : (e.named n).kinds w = e.kinds w := by
  cases e with
  | lambda l o ps body => cases o <;> rfl
  | _ => rfl

end Expr

@[simp] theorem Arm.bares_eq_map (arms : List Arm) : bares arms = arms.map bare := by
  induction arms with
  | nil => rfl
  | cons a arms ih => rw [bares, ih, List.map_cons]

namespace Stmt

@[simp] theorem bares_eq_map (ss : List Stmt) : bares ss = ss.map bare := by
  induction ss with
  | nil => rfl
  | cons s ss ih => rw [bares, ih, List.map_cons]

theorem isDeclaration_bare (s : Stmt) : s.bare.isDeclaration = s.isDeclaration := by
  cases s <;> rfl

end Stmt

end ModuleScript
