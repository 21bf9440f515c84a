import ModuleScript.Program.Expr
import ModuleScript.Program.Token

/-!
# The grammar

The grammar of programs, with its derivation trees as data: one constructor for each production. A
tree has the tokens at its leaves, a value unless a construct in it cannot stand, and it is ambiguous
which of two matches an arm belongs to if the subject of one leaves the other open at its end.
-/

set_option autoImplicit false

namespace ModuleScript.Grammar

inductive Symbol where
  | program
  | items
  | separator
  | item
  | statement
  | declaration
  | importNames
  | expression
  | params
  | paramList
  | arms
  | arm
  /-- An operand with the calls behind it. -/
  | applied
  | arguments
  | argumentList
  | primary
  deriving DecidableEq

/-- What a tree with the symbol at its root stands for. -/
abbrev Symbol.Value : Symbol → Type
  | program => Program
  | items => List Stmt
  | separator => Unit
  | item => Option Stmt
  | statement | declaration => Stmt
  | importNames | params | paramList => List Ident
  | expression | applied | primary => Expr
  | arms => List Arm
  | arm => Arm
  | arguments | argumentList => List Expr

/-- The derivation trees, with the locations of the tokens at their leaves. -/
inductive Tree : Symbol → Type where
  | program (t : Tree .items) : Tree .program
  | oneItem (t : Tree .item) : Tree .items
  | moreItems (ts : Tree .items) (s : Tree .separator) (t : Tree .item) : Tree .items
  | newline (l : Location) : Tree .separator
  | semicolon (l : Location) : Tree .separator
  | filled (t : Tree .statement) : Tree .item
  | blank : Tree .item
  | expression (t : Tree .expression) : Tree .statement
  | declaration (t : Tree .declaration) : Tree .statement
  | publicBinding (l l₁ l₂ l₃ : Location) (n : Ident) (t : Tree .expression) : Tree .declaration
  | variation (l l₁ l₂ : Location) (n : Ident) (t : Tree .expression) : Tree .declaration
  | module (l l₁ l₂ l₃ : Location) (n : Ident) (t : Tree .items) : Tree .declaration
  | publicModule (l l₁ l₂ l₃ l₄ : Location) (n : Ident) (t : Tree .items) : Tree .declaration
  | imports (l l₁ l₂ : Location) (t : Tree .importNames) (path : Text) : Tree .declaration
  | oneImport (l : Location) (n : Ident) : Tree .importNames
  | moreImports (t : Tree .importNames) (l₁ l₂ : Location) (n : Ident) : Tree .importNames
  | binding (l l₁ l₂ : Location) (n : Ident) (t : Tree .expression) : Tree .expression
  | lambda (l l₁ l₂ l₃ : Location) (ps : Tree .params) (t : Tree .expression) : Tree .expression
  | cond (l l₁ l₂ : Location) (a b c : Tree .expression) : Tree .expression
  | select (l : Location) (t : Tree .expression) (arms : Tree .arms) : Tree .expression
  | binary (l : Location) {m : Mark} {op : BinaryOp} (hop : m.binary? = some op)
      (a b : Tree .expression) : Tree .expression
  | unary (l : Location) {m : Mark} {op : UnaryOp} (hop : m.unary? = some op)
      (t : Tree .expression) : Tree .expression
  | operand (t : Tree .applied) : Tree .expression
  | noParams : Tree .params
  | someParams (t : Tree .paramList) : Tree .params
  | oneParam (l : Location) (n : Ident) : Tree .paramList
  | moreParams (t : Tree .paramList) (l₁ l₂ : Location) (n : Ident) : Tree .paramList
  | oneArm (t : Tree .arm) : Tree .arms
  | moreArms (ts : Tree .arms) (t : Tree .arm) : Tree .arms
  | arm (l l₁ l₂ : Location) (x : Ident) (t : Tree .expression) : Tree .arm
  | guardedArm (l l₁ l₂ l₃ : Location) (x : Ident) (guard t : Tree .expression) : Tree .arm
  | uncalled (t : Tree .primary) : Tree .applied
  | call (f : Tree .applied) (l₁ l₂ : Location) (t : Tree .arguments) : Tree .applied
  | noArguments : Tree .arguments
  | someArguments (t : Tree .argumentList) : Tree .arguments
  | oneArgument (t : Tree .expression) : Tree .argumentList
  | moreArguments (ts : Tree .argumentList) (l₁ : Location) (t : Tree .expression) :
      Tree .argumentList
  | number (l : Location) (n : Nat) : Tree .primary
  | float (l : Location) (x : Binary64) : Tree .primary
  | string (l : Location) (t : Text) : Tree .primary
  | char (l : Location) (c : CodePoint) : Tree .primary
  | bool (l : Location) (b : Bool) : Tree .primary
  | name (l : Location) (n : Ident) : Tree .primary
  | dotted (l : Location) (names : List Ident) : Tree .primary
  | group (l l₁ : Location) (t : Tree .expression) : Tree .primary
  | unit (l l₁ : Location) : Tree .primary
  | block (l l₁ : Location) (t : Tree .items) : Tree .primary
  | list (l l₁ : Location) (t : Tree .arguments) : Tree .primary
  | range (l l₁ l₂ : Location) (a b : Tree .expression) : Tree .primary
  | comprehension (l l₁ l₂ l₃ l₄ : Location) (e : Tree .expression) (x : Ident)
      (b : Tree .expression) : Tree .primary
  | filtered (l l₁ l₂ l₃ l₄ l₅ : Location) (e : Tree .expression) (x : Ident)
      (b c : Tree .expression) : Tree .primary

namespace Tree

/-- The tokens at the leaves of a tree, from left to right. -/
def tokens : {s : Symbol} → Tree s → List Token
  | _, program t | _, oneItem t | _, filled t | _, expression t | _, declaration t | _, operand t
  | _, someParams t | _, oneArm t | _, uncalled t | _, someArguments t | _, oneArgument t =>
    t.tokens
  | _, moreItems ts s t => ts.tokens ++ s.tokens ++ t.tokens
  | _, newline l => [⟨.newline, l⟩]
  | _, semicolon l => [⟨.mark .semicolon, l⟩]
  | _, blank | _, noParams | _, noArguments => []
  | _, publicBinding l l₁ l₂ l₃ n t =>
    [⟨.keyword .pubWord, l⟩, ⟨.keyword .letWord, l₁⟩, ⟨.identifier n, l₂⟩, ⟨.mark .assign, l₃⟩] ++
      t.tokens
  | _, variation l l₁ l₂ n t =>
    [⟨.keyword .varWord, l⟩, ⟨.identifier n, l₁⟩, ⟨.mark .assign, l₂⟩] ++ t.tokens
  | _, module l l₁ l₂ l₃ n t =>
    [⟨.keyword .modWord, l⟩, ⟨.identifier n, l₁⟩, ⟨.mark .leftBrace, l₂⟩] ++ t.tokens ++
      [⟨.mark .rightBrace, l₃⟩]
  | _, publicModule l l₁ l₂ l₃ l₄ n t =>
    [⟨.keyword .pubWord, l⟩, ⟨.keyword .modWord, l₁⟩, ⟨.identifier n, l₂⟩,
      ⟨.mark .leftBrace, l₃⟩] ++ t.tokens ++ [⟨.mark .rightBrace, l₄⟩]
  | _, imports l l₁ l₂ t path =>
    ⟨.keyword .impWord, l⟩ :: t.tokens ++ [⟨.keyword .fromWord, l₁⟩, ⟨.string path, l₂⟩]
  | _, oneImport l n | _, oneParam l n => [⟨.identifier n, l⟩]
  | _, moreImports t l₁ l₂ n | _, moreParams t l₁ l₂ n =>
    t.tokens ++ [⟨.mark .comma, l₁⟩, ⟨.identifier n, l₂⟩]
  | _, binding l l₁ l₂ n t =>
    [⟨.keyword .letWord, l⟩, ⟨.identifier n, l₁⟩, ⟨.mark .assign, l₂⟩] ++ t.tokens
  | _, lambda l l₁ l₂ l₃ ps t =>
    [⟨.keyword .fnWord, l⟩, ⟨.mark .leftParen, l₁⟩] ++ ps.tokens ++
      [⟨.mark .rightParen, l₂⟩, ⟨.mark .arrow, l₃⟩] ++ t.tokens
  | _, cond l l₁ l₂ a b c =>
    ⟨.keyword .ifWord, l⟩ :: a.tokens ++ ⟨.keyword .thenWord, l₁⟩ :: b.tokens ++
      ⟨.keyword .elseWord, l₂⟩ :: c.tokens
  | _, select l t arms => ⟨.keyword .matchWord, l⟩ :: t.tokens ++ arms.tokens
  | _, @binary l m _ _ a b => a.tokens ++ ⟨.mark m, l⟩ :: b.tokens
  | _, @unary l m _ _ t => ⟨.mark m, l⟩ :: t.tokens
  | _, moreArms ts t => ts.tokens ++ t.tokens
  | _, arm l l₁ l₂ x t =>
    [⟨.mark .bar, l⟩, ⟨.identifier x, l₁⟩, ⟨.keyword .thenWord, l₂⟩] ++ t.tokens
  | _, guardedArm l l₁ l₂ l₃ x guard t =>
    [⟨.mark .bar, l⟩, ⟨.identifier x, l₁⟩, ⟨.keyword .andWord, l₂⟩] ++ guard.tokens ++
      ⟨.keyword .thenWord, l₃⟩ :: t.tokens
  | _, call f l₁ l₂ t =>
    f.tokens ++ ⟨.mark .leftParen, l₁⟩ :: t.tokens ++ [⟨.mark .rightParen, l₂⟩]
  | _, moreArguments ts l₁ t => ts.tokens ++ ⟨.mark .comma, l₁⟩ :: t.tokens
  | _, number l n => [⟨.number n, l⟩]
  | _, float l x => [⟨.float x, l⟩]
  | _, string l t => [⟨.string t, l⟩]
  | _, char l c => [⟨.char c, l⟩]
  | _, bool l b => [⟨.keyword (if b then .trueWord else .falseWord), l⟩]
  | _, name l n => [⟨.identifier n, l⟩]
  | _, dotted l names => [⟨.dotted names, l⟩]
  | _, group l l₁ t => ⟨.mark .leftParen, l⟩ :: t.tokens ++ [⟨.mark .rightParen, l₁⟩]
  | _, unit l l₁ => [⟨.mark .leftParen, l⟩, ⟨.mark .rightParen, l₁⟩]
  | _, block l l₁ t => ⟨.mark .leftBrace, l⟩ :: t.tokens ++ [⟨.mark .rightBrace, l₁⟩]
  | _, list l l₁ t => ⟨.mark .leftBracket, l⟩ :: t.tokens ++ [⟨.mark .rightBracket, l₁⟩]
  | _, range l l₁ l₂ a b =>
    ⟨.mark .leftBracket, l⟩ :: a.tokens ++ ⟨.mark .dots, l₁⟩ :: b.tokens ++
      [⟨.mark .rightBracket, l₂⟩]
  | _, comprehension l l₁ l₂ l₃ l₄ e x b =>
    ⟨.mark .leftBracket, l⟩ :: e.tokens ++
      [⟨.keyword .forWord, l₁⟩, ⟨.identifier x, l₂⟩, ⟨.keyword .inWord, l₃⟩] ++ b.tokens ++
        [⟨.mark .rightBracket, l₄⟩]
  | _, filtered l l₁ l₂ l₃ l₄ l₅ e x b c =>
    ⟨.mark .leftBracket, l⟩ :: e.tokens ++
      [⟨.keyword .forWord, l₁⟩, ⟨.identifier x, l₂⟩, ⟨.keyword .inWord, l₃⟩] ++ b.tokens ++
        ⟨.keyword .ifWord, l₄⟩ :: c.tokens ++ [⟨.mark .rightBracket, l₅⟩]

/-- What a tree stands for. A lambda must not repeat a parameter, only a function can be given to a
variation, and declarations cannot stand in a block. -/
def value? : {s : Symbol} → Tree s → Option s.Value
  | _, program t => t.value?
  | _, oneItem t => do
    let s ← t.value?
    return s.toList
  | _, moreItems ts _ t => do
    let ss ← ts.value?
    let s ← t.value?
    return ss ++ s.toList
  | _, newline _ | _, semicolon _ => some ()
  | _, filled t => do
    let s ← t.value?
    return some s
  | _, blank => some none
  | _, expression t => do
    let e ← t.value?
    return .expr e
  | _, declaration t => t.value?
  | _, publicBinding l _ _ _ n t => do
    let e ← t.value?
    return .publicBinding l n (e.named n)
  | _, variation l _ _ n t => do
    match ← t.value? with
    | .lambda l' _ ps e => some (.variation l n l' ps e)
    | _ => none
  | _, module l _ _ _ n t => do
    let ss ← t.value?
    return .module l false n ss
  | _, publicModule l _ _ _ _ n t => do
    let ss ← t.value?
    return .module l true n ss
  | _, imports l _ _ t path => do
    let ns ← t.value?
    return .imports l ns path
  | _, oneImport _ n | _, oneParam _ n => some [n]
  | _, moreImports t _ _ n | _, moreParams t _ _ n => do
    let ns ← t.value?
    return ns ++ [n]
  | _, binding l _ _ n t => do
    let e ← t.value?
    return .binding l n (e.named n)
  | _, lambda l _ _ _ ps t => do
    let names ← ps.value?
    let e ← t.value?
    if names.Nodup then some (.lambda l none names e) else none
  | _, cond l _ _ a b c => do
    let e ← a.value?
    let yes ← b.value?
    let no ← c.value?
    return .cond l e yes no
  | _, select l t arms => do
    let e ← t.value?
    let as ← arms.value?
    return .select l e as
  | _, @binary l _ op _ a b => do
    let e ← a.value?
    let e' ← b.value?
    return .binary l op e e'
  | _, @unary l _ op _ t => do
    let e ← t.value?
    return .unary l op e
  | _, operand t => t.value?
  | _, noParams => some []
  | _, someParams t => t.value?
  | _, oneArm t => do
    let a ← t.value?
    return [a]
  | _, moreArms ts t => do
    let as ← ts.value?
    let a ← t.value?
    return as ++ [a]
  | _, arm l _ _ x t => do
    let e ← t.value?
    return .mk l x none e
  | _, guardedArm l _ _ _ x guard t => do
    let g ← guard.value?
    let e ← t.value?
    return .mk l x (some g) e
  | _, uncalled t => t.value?
  | _, call f _ _ t => do
    let e ← f.value?
    let es ← t.value?
    return Expr.applied e es
  | _, noArguments => some []
  | _, someArguments t => t.value?
  | _, oneArgument t => do
    let e ← t.value?
    return [e]
  | _, moreArguments ts _ t => do
    let es ← ts.value?
    let e ← t.value?
    return es ++ [e]
  | _, number l n => some (.constant l (.number (.int n)))
  | _, float l x => some (.constant l (.number (.float x)))
  | _, string l t => some (.constant l (.string t))
  | _, char l c => some (.constant l (.char c))
  | _, bool l b => some (.constant l (.bool b))
  | _, name l n => some (.name l n)
  | _, dotted l names => some (.dotted l names)
  | _, group _ _ t => t.value?
  | _, unit l _ => some (.unit l)
  | _, block l _ t => do
    let ss ← t.value?
    if ss.any Stmt.isDeclaration then none else some (.block l ss)
  | _, list l _ t => do
    let es ← t.value?
    return .list l es
  | _, range l _ _ a b => do
    let e ← a.value?
    let e' ← b.value?
    return .range l e e'
  | _, comprehension l _ _ _ _ t x b => do
    let e ← t.value?
    let e' ← b.value?
    return .comprehension l e x e' none
  | _, filtered l _ _ _ _ _ t x b c => do
    let e ← t.value?
    let e' ← b.value?
    let e'' ← c.value?
    return .comprehension l e x e' (some e'')

/-- Whether an expression ends with a match that is not in parentheses; with `left`, also whether the
left operand of an operation at its end does. -/
def trailing (left : Bool) : {s : Symbol} → Tree s → Bool
  | _, select _ _ _ => true
  | _, binding _ _ _ _ t | _, lambda _ _ _ _ _ t | _, cond _ _ _ _ _ t | _, unary _ _ t =>
    t.trailing left
  | _, binary _ _ a b => left && a.trailing left || b.trailing left
  | _, _ => false

/-- No subject of a match has a match trailing. -/
def clear (left : Bool) : {s : Symbol} → Tree s → Bool
  | _, select _ t arms => !t.trailing left && (t.clear left && arms.clear left)
  | _, program t | _, oneItem t | _, filled t | _, expression t | _, declaration t | _, operand t
  | _, oneArm t | _, uncalled t | _, someArguments t | _, oneArgument t
  | _, publicBinding _ _ _ _ _ t | _, variation _ _ _ _ t | _, module _ _ _ _ _ t
  | _, publicModule _ _ _ _ _ _ t | _, binding _ _ _ _ t | _, lambda _ _ _ _ _ t | _, unary _ _ t
  | _, arm _ _ _ _ t | _, group _ _ t | _, block _ _ t | _, list _ _ t => t.clear left
  | _, moreItems a _ b => a.clear left && b.clear left
  | _, cond _ _ _ a b c | _, filtered _ _ _ _ _ _ a _ b c =>
    a.clear left && (b.clear left && c.clear left)
  | _, binary _ _ a b | _, guardedArm _ _ _ _ _ a b | _, range _ _ _ a b
  | _, comprehension _ _ _ _ _ a _ b => a.clear left && b.clear left
  | _, moreArms a b => a.clear left && b.clear left
  | _, call a _ _ b => a.clear left && b.clear left
  | _, moreArguments a _ b => a.clear left && b.clear left
  | _, newline _ | _, semicolon _ | _, blank | _, imports _ _ _ _ _ | _, oneImport _ _
  | _, moreImports _ _ _ _ | _, noParams | _, someParams _ | _, oneParam _ _
  | _, moreParams _ _ _ _ | _, noArguments | _, number _ _ | _, float _ _ | _, string _ _
  | _, char _ _ | _, bool _ _ | _, name _ _ | _, dotted _ _ | _, unit _ _ => true

end Tree

end ModuleScript.Grammar
