import ModuleScript.Program.Expr
import ModuleScript.Program.Layout

/-!
# Reading programs

A reader takes one token after another. Between tokens it holds the constructs that have begun,
innermost first, and what may come next. A token that ends an expression first ends every construct
that is open to the right, from the innermost outwards, and a construct is checked when it ends.
-/

set_option autoImplicit false

namespace ModuleScript.Reader

/-- A construct that has begun. The first eight end when the token after their last part cannot
belong to it; the others wait for a token of their own. -/
inductive Pending where
  | unary (l : Location) (op : UnaryOp)
  | binary (l : Location) (op : BinaryOp) (left : Expr)
  | binding (l : Location) (name : Ident)
  | lambda (l : Location) (params : List Ident)
  | otherwise (l : Location) (condition yes : Expr)
  | armBody (l : Location) (subject : Expr) (arms : List Arm) (armLocation : Location)
      (binder : Ident) (guard : Option Expr)
  | publicBinding (l : Location) (name : Ident)
  | variation (l : Location) (name : Ident)
  | condition (l : Location)
  | consequence (l : Location) (condition : Expr)
  | subject (l : Location)
  | guard (l : Location) (subject : Expr) (arms : List Arm) (armLocation : Location)
      (binder : Ident)
  | group (l : Location)
  | arguments (callee : Expr) (done : List Expr)
  | list (l : Location) (done : List Expr)
  | rangeStop (l : Location) (first : Expr)
  | iterable (l : Location) (element : Expr) (binder : Ident)
  | filter (l : Location) (element : Expr) (binder : Ident) (iterable : Expr)
  | block (l : Location) (done : List Stmt)
  | moduleBody (l : Location) (isPublic : Bool) (name : Ident) (done : List Stmt)
  | program (done : List Stmt)

/-- A place in the fixed beginning of a construct, named for what has been read of it. -/
inductive Head where
  | pubWord (l : Location)
  | letWord (l : Location) (isPublic : Bool)
  | letName (l : Location) (isPublic : Bool) (name : Ident)
  | varWord (l : Location)
  | varName (l : Location) (name : Ident)
  | modWord (l : Location) (isPublic : Bool)
  | modName (l : Location) (isPublic : Bool) (name : Ident)
  | impWord (l : Location) (names : List Ident)
  | impName (l : Location) (names : List Ident)
  | fromWord (l : Location) (names : List Ident)
  | fnWord (l : Location)
  | fnParen (l : Location)
  | fnComma (l : Location) (params : List Ident)
  | fnParam (l : Location) (params : List Ident)
  | fnParams (l : Location) (params : List Ident)
  | bar (l : Location) (subject : Expr) (arms : List Arm) (armLocation : Location)
  | binder (l : Location) (subject : Expr) (arms : List Arm) (armLocation : Location)
      (binder : Ident)
  | forWord (l : Location) (element : Expr)
  | forName (l : Location) (element : Expr) (binder : Ident)

/-- What may come next. -/
inductive Expect where
  /-- A statement, a separator, or the end of the body. -/
  | item
  /-- An expression. -/
  | operand
  /-- An expression, or the mark that closes the innermost construct. -/
  | operandOrClose
  /-- More of an expression, or what follows it. A flaw is reported once what follows is known to
  be possible after an expression. -/
  | more (e : Expr) (flaw : Option Report)
  /-- The end of a statement that cannot go on. -/
  | ended (s : Stmt)
  | within (h : Head)

end Reader

structure Reader where
  pending : List Reader.Pending
  expect : Reader.Expect

namespace Reader

def start : Reader := ⟨[.program []], .item⟩

def unexpected {α : Type} (t : Token) : Except Report α :=
  .error ((Cause.unexpected t.text).reportAt t.location)

def unexpectedEnd {α : Type} : Except Report α := .error Cause.unexpectedEnd.report

/-- A token that may stand after an expression and does not continue it. -/
inductive Closer where
  | comma
  | rightParen
  | rightBracket
  | dots
  | forWord
  | ifWord
  | thenWord
  | elseWord
  | bar
  | separator
  | rightBrace
  deriving DecidableEq

/-- What a token means after an expression. -/
inductive Follower where
  | arguments
  | operator (op : BinaryOp)
  | closer (c : Closer)

def follower? : Token.Kind → Option Follower
  | .mark m =>
    match m with
    | .leftParen => some .arguments
    | .comma => some (.closer .comma)
    | .rightParen => some (.closer .rightParen)
    | .rightBracket => some (.closer .rightBracket)
    | .dots => some (.closer .dots)
    | .bar => some (.closer .bar)
    | .semicolon => some (.closer .separator)
    | .rightBrace => some (.closer .rightBrace)
    | m => m.binary?.map .operator
  | .keyword .forWord => some (.closer .forWord)
  | .keyword .ifWord => some (.closer .ifWord)
  | .keyword .thenWord => some (.closer .thenWord)
  | .keyword .elseWord => some (.closer .elseWord)
  | .newline => some (.closer .separator)
  | _ => none

/-- Ends the operations that bind at least as tightly as an operator of the given level. -/
def settleOperators (level : Nat) : List Pending → Expr → List Pending × Expr
  | .unary l op :: rest, e => settleOperators level rest (.unary l op e)
  | .binary l op left :: rest, e =>
    if level ≤ op.level then settleOperators level rest (.binary l op left e)
    else (.binary l op left :: rest, e)
  | pending, e => (pending, e)

/-- Ends the expressions that are open to the right; before a bar, not the arm it may end. -/
def settle (atBar : Bool) : List Pending → Expr → Except Report (List Pending × Expr)
  | .unary l op :: rest, e => settle atBar rest (.unary l op e)
  | .binary l op left :: rest, e => settle atBar rest (.binary l op left e)
  | .binding l n :: rest, e => settle atBar rest (.binding l n (e.named n))
  | .lambda l params :: rest, e =>
    if params.Nodup then settle atBar rest (.lambda l none params e)
    else .error (Cause.duplicateParameter.reportAt l)
  | .otherwise l condition yes :: rest, e => settle atBar rest (.cond l condition yes e)
  | .armBody l subject arms armLocation binder guard :: rest, e =>
    if atBar then .ok (.armBody l subject arms armLocation binder guard :: rest, e)
    else settle atBar rest (.select l subject (arms ++ [.mk armLocation binder guard e]))
  | pending, e => .ok (pending, e)

def statement : List Pending → Expr → Except Report (List Pending × Stmt)
  | .publicBinding l n :: rest, e => .ok (rest, .publicBinding l n (e.named n))
  | .variation l n :: rest, e =>
    match e with
    | .lambda l' _ params body => .ok (rest, .variation l n l' params body)
    | _ => .error ((Cause.variationWithoutFunction n).reportAt l)
  | pending, e => .ok (pending, .expr e)

def addStatement? (s : Stmt) : List Pending → Option (List Pending)
  | .block l done :: rest => some (.block l (done ++ [s]) :: rest)
  | .moduleBody l isPublic name done :: rest =>
    some (.moduleBody l isPublic name (done ++ [s]) :: rest)
  | .program done :: rest => some (.program (done ++ [s]) :: rest)
  | _ => none

/-- The first declaration among the statements of a block. -/
def blockFlaw (statements : List Stmt) : Option Report :=
  (statements.find? Stmt.isDeclaration).map fun s => Cause.declarationInBlock.reportAt s.location

/-- Ends the body before a right brace. -/
def closeBody (t : Token) : List Pending → Except Report Reader
  | .block l done :: rest => .ok ⟨rest, .more (.block l done) (blockFlaw done)⟩
  | .moduleBody l isPublic name done :: rest =>
    .ok ⟨rest, .ended (.module l isPublic name done)⟩
  | _ => unexpected t

/-- Ends a statement before a separator or a right brace. -/
def endStatement (t : Token) (c : Closer) (s : Stmt) (pending : List Pending) :
    Except Report Reader :=
  match addStatement? s pending with
  | none => unexpected t
  | some pending => if c = .rightBrace then closeBody t pending else .ok ⟨pending, .item⟩

/-- The token after an expression, every construct open to the right having ended. -/
def close (t : Token) (c : Closer) (pending : List Pending) (e : Expr) : Except Report Reader :=
  match c, pending with
  | .comma, .arguments callee done :: rest =>
    .ok ⟨.arguments callee (done ++ [e]) :: rest, .operand⟩
  | .comma, .list l done :: rest => .ok ⟨.list l (done ++ [e]) :: rest, .operand⟩
  | .rightParen, .group _ :: rest => .ok ⟨rest, .more e none⟩
  | .rightParen, .arguments callee done :: rest =>
    .ok ⟨rest, .more (callee.applied (done ++ [e])) none⟩
  | .rightBracket, .list l done :: rest => .ok ⟨rest, .more (.list l (done ++ [e])) none⟩
  | .rightBracket, .rangeStop l first :: rest => .ok ⟨rest, .more (.range l first e) none⟩
  | .rightBracket, .iterable l element x :: rest =>
    .ok ⟨rest, .more (.comprehension l element x e none) none⟩
  | .rightBracket, .filter l element x iterable :: rest =>
    .ok ⟨rest, .more (.comprehension l element x iterable (some e)) none⟩
  | .dots, .list l [] :: rest => .ok ⟨.rangeStop l e :: rest, .operand⟩
  | .forWord, .list l [] :: rest => .ok ⟨rest, .within (.forWord l e)⟩
  | .ifWord, .iterable l element x :: rest =>
    .ok ⟨.filter l element x e :: rest, .operand⟩
  | .thenWord, .condition l :: rest => .ok ⟨.consequence l e :: rest, .operand⟩
  | .thenWord, .guard l subject arms armLocation binder :: rest =>
    .ok ⟨.armBody l subject arms armLocation binder (some e) :: rest, .operand⟩
  | .elseWord, .consequence l condition :: rest =>
    .ok ⟨.otherwise l condition e :: rest, .operand⟩
  | .bar, .subject l :: rest => .ok ⟨rest, .within (.bar l e [] t.location)⟩
  | .bar, .armBody l subject arms armLocation binder guard :: rest =>
    .ok ⟨rest, .within (.bar l subject (arms ++ [.mk armLocation binder guard e]) t.location)⟩
  | .separator, pending | .rightBrace, pending => do
    let (pending, s) ← statement pending e
    endStatement t c s pending
  | _, _ => unexpected t

def continueWith (t : Token) (pending : List Pending) (e : Expr) (flaw : Option Report) :
    Except Report Reader :=
  match follower? t.kind, flaw with
  | none, _ => unexpected t
  | some _, some r => .error r
  | some .arguments, none => .ok ⟨.arguments e [] :: pending, .operandOrClose⟩
  | some (.operator op), none =>
    let (pending, e) := settleOperators op.level pending e
    .ok ⟨.binary t.location op e :: pending, .operand⟩
  | some (.closer c), none => do
    let (pending, e) ← settle (c == .bar) pending e
    close t c pending e

def startOperand (t : Token) (pending : List Pending) : Except Report Reader :=
  let l := t.location
  let leaf (e : Expr) : Except Report Reader := .ok ⟨pending, .more e none⟩
  match t.kind with
  | .identifier n => leaf (.name l n)
  | .dotted ns => leaf (.dotted l ns)
  | .number n => leaf (.constant l (.number (.int n)))
  | .float x => leaf (.constant l (.number (.float x)))
  | .string s => leaf (.constant l (.string s))
  | .char c => leaf (.constant l (.char c))
  | .keyword .trueWord => leaf (.constant l (.bool true))
  | .keyword .falseWord => leaf (.constant l (.bool false))
  | .keyword .letWord => .ok ⟨pending, .within (.letWord l false)⟩
  | .keyword .fnWord => .ok ⟨pending, .within (.fnWord l)⟩
  | .keyword .ifWord => .ok ⟨.condition l :: pending, .operand⟩
  | .keyword .matchWord => .ok ⟨.subject l :: pending, .operand⟩
  | .mark .leftParen => .ok ⟨.group l :: pending, .operandOrClose⟩
  | .mark .leftBracket => .ok ⟨.list l [] :: pending, .operandOrClose⟩
  | .mark .leftBrace => .ok ⟨.block l [] :: pending, .item⟩
  | .mark m =>
    match m.unary? with
    | some op => .ok ⟨.unary l op :: pending, .operand⟩
    | none => unexpected t
  | _ => unexpected t

/-- A token where an expression or a closing mark is to come. -/
def startOrClose (t : Token) (pending : List Pending) : Except Report Reader :=
  match t.kind, pending with
  | .mark .rightParen, .group l :: rest => .ok ⟨rest, .more (.unit l) none⟩
  | .mark .rightParen, .arguments callee done :: rest =>
    .ok ⟨rest, .more (callee.applied done) none⟩
  | .mark .rightBracket, .list l done :: rest => .ok ⟨rest, .more (.list l done) none⟩
  | _, _ => startOperand t pending

def startItem (t : Token) (pending : List Pending) : Except Report Reader :=
  match t.kind with
  | .newline | .mark .semicolon => .ok ⟨pending, .item⟩
  | .mark .rightBrace => closeBody t pending
  | .keyword .pubWord => .ok ⟨pending, .within (.pubWord t.location)⟩
  | .keyword .varWord => .ok ⟨pending, .within (.varWord t.location)⟩
  | .keyword .modWord => .ok ⟨pending, .within (.modWord t.location false)⟩
  | .keyword .impWord => .ok ⟨pending, .within (.impWord t.location [])⟩
  | _ => startOperand t pending

/-- The token after a statement that cannot go on. -/
def endItem (t : Token) (s : Stmt) (pending : List Pending) : Except Report Reader :=
  match follower? t.kind with
  | some (.closer .separator) => endStatement t .separator s pending
  | some (.closer .rightBrace) => endStatement t .rightBrace s pending
  | _ => unexpected t

/-- The next token of a fixed beginning. -/
def advance (t : Token) (pending : List Pending) (h : Head) : Except Report Reader :=
  let go (h : Head) : Except Report Reader := .ok ⟨pending, .within h⟩
  let body (p : Pending) (e : Expect) : Except Report Reader := .ok ⟨p :: pending, e⟩
  match h, t.kind with
  | .pubWord l, .keyword .letWord => go (.letWord l true)
  | .pubWord l, .keyword .modWord => go (.modWord l true)
  | .letWord l isPublic, .identifier n => go (.letName l isPublic n)
  | .letName l true n, .mark .assign => body (.publicBinding l n) .operand
  | .letName l false n, .mark .assign => body (.binding l n) .operand
  | .varWord l, .identifier n => go (.varName l n)
  | .varName l n, .mark .assign => body (.variation l n) .operand
  | .modWord l isPublic, .identifier n => go (.modName l isPublic n)
  | .modName l isPublic n, .mark .leftBrace => body (.moduleBody l isPublic n []) .item
  | .impWord l ns, .identifier n => go (.impName l (ns ++ [n]))
  | .impName l ns, .mark .comma => go (.impWord l ns)
  | .impName l ns, .keyword .fromWord => go (.fromWord l ns)
  | .fromWord l ns, .string path => .ok ⟨pending, .ended (.imports l ns path)⟩
  | .fnWord l, .mark .leftParen => go (.fnParen l)
  | .fnParen l, .identifier n => go (.fnParam l [n])
  | .fnParen l, .mark .rightParen => go (.fnParams l [])
  | .fnComma l params, .identifier n => go (.fnParam l (params ++ [n]))
  | .fnParam l params, .mark .comma => go (.fnComma l params)
  | .fnParam l params, .mark .rightParen => go (.fnParams l params)
  | .fnParams l params, .mark .arrow => body (.lambda l params) .operand
  | .bar l subject arms l', .identifier n => go (.binder l subject arms l' n)
  | .binder l subject arms l' n, .keyword .thenWord =>
    body (.armBody l subject arms l' n none) .operand
  | .binder l subject arms l' n, .keyword .andWord => body (.guard l subject arms l' n) .operand
  | .forWord l element, .identifier n => go (.forName l element n)
  | .forName l element n, .keyword .inWord => body (.iterable l element n) .operand
  | _, _ => unexpected t

def feed (r : Reader) (t : Token) : Except Report Reader :=
  match r.expect with
  | .item => startItem t r.pending
  | .operand => startOperand t r.pending
  | .operandOrClose => startOrClose t r.pending
  | .more e flaw => continueWith t r.pending e flaw
  | .ended s => endItem t s r.pending
  | .within h => advance t r.pending h

/-- The program that a last statement completes. -/
def whole (s : Stmt) (pending : List Pending) : Except Report Program :=
  match addStatement? s pending with
  | some [.program done] => .ok done
  | _ => unexpectedEnd

def finish (r : Reader) : Except Report Program :=
  match r.expect with
  | .item =>
    match r.pending with
    | [.program done] => .ok done
    | _ => unexpectedEnd
  | .more _ (some flaw) => .error flaw
  | .more e none => do
    let (pending, e) ← settle false r.pending e
    let (pending, s) ← statement pending e
    whole s pending
  | .ended s => whole s r.pending
  | _ => unexpectedEnd

def feedAll (r : Reader) : List Token → Except Report Reader
  | [] => .ok r
  | t :: ts => do
    let r ← r.feed t
    r.feedAll ts

end Reader

def readTokens (ts : List Token) : Except Report Program := do
  let r ← Reader.start.feedAll ts
  r.finish

/-- The program of a source. The first fault counts, whether it lies in the shape of a lexeme or in
the order of the tokens. -/
def readProgram (file source : Text) : Except Failure Program :=
  let (tokens, stop) := tokenize file source
  match Reader.start.feedAll tokens, stop with
  | .error r, _ => .error (.report r)
  | .ok _, some f => .error f
  | .ok r, none => r.finish.mapError .report

end ModuleScript
