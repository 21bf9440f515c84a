import ModuleScript.Proofs.Grammar.Tree
import ModuleScript.Proofs.Reading.Feeding

/-!
# Productions that have begun

While it reads, a reader accounts for all the tokens it has been given: each construct that has begun
stands for the beginning of a production, and what comes last for a tree. Where an expression ends a
construct, the two make a tree.
-/

set_option autoImplicit false

namespace ModuleScript

namespace Grammar

/-- The tokens are derived by a clear tree that stands for the value. -/
def Derives (s : Symbol) (ts : List Token) (v : s.Value) : Prop :=
  ∃ t : Tree s, t.tokens = ts ∧ t.value? = some v ∧ t.clear true = true

/-- The tokens are derived as an expression; if `shut`, by a tree with no match trailing. -/
def DerivesExpr (shut : Bool) (ts : List Token) (e : Expr) : Prop :=
  ∃ t : Tree .expression, t.tokens = ts ∧ t.value? = some e ∧ t.clear true = true ∧
    (shut = true → t.trailing true = false)

def IsSeparator (t : Token) : Prop := t.kind = .newline ∨ t.kind = .mark .semicolon

/-! ## Beginnings of productions -/

/-- Arguments or elements, each with a comma behind it. -/
inductive BegunList : List Expr → List Token → Prop where
  | nil : BegunList [] []
  | comma {es : List Expr} {ts : List Token} (l : Location) : Derives .argumentList ts es →
    BegunList es (ts ++ [⟨.mark .comma, l⟩])

/-- Items, each with a separator behind it. -/
inductive BegunItems : List Stmt → List Token → Prop where
  | nil : BegunItems [] []
  | separator {ss : List Stmt} {ts : List Token} {t : Token} : Derives .items ts ss →
    IsSeparator t → BegunItems ss (ts ++ [t])

/-- A match with its subject and its first arms, if any. -/
inductive BegunSelect (l : Location) : Expr → List Arm → List Token → Prop where
  | subject {e : Expr} {ts : List Token} : DerivesExpr true ts e →
    BegunSelect l e [] (⟨.keyword .matchWord, l⟩ :: ts)
  | arms {e : Expr} {ts us : List Token} {as : List Arm} : DerivesExpr true ts e →
    Derives .arms us as → BegunSelect l e as (⟨.keyword .matchWord, l⟩ :: ts ++ us)

/-- The tokens of a module up to its left brace. -/
inductive BegunModule : Location → Bool → Ident → List Token → Prop where
  | plain {l : Location} {n : Ident} (l₁ l₂ : Location) :
    BegunModule l false n [⟨.keyword .modWord, l⟩, ⟨.identifier n, l₁⟩, ⟨.mark .leftBrace, l₂⟩]
  | isPublic {l : Location} {n : Ident} (l₁ l₂ l₃ : Location) :
    BegunModule l true n [⟨.keyword .pubWord, l⟩, ⟨.keyword .modWord, l₁⟩, ⟨.identifier n, l₂⟩,
      ⟨.mark .leftBrace, l₃⟩]

end Grammar

open Grammar Reader

/-- The tokens of a construct that has begun, up to what is to come next. -/
inductive Reader.Pending.Begun : Pending → List Token → Prop where
  | unary {l : Location} {m : Mark} {op : UnaryOp} : m.unary? = some op →
    Begun (.unary l op) [⟨.mark m, l⟩]
  | binary {l : Location} {m : Mark} {op : BinaryOp} {a : Expr} {ts : List Token} :
    m.binary? = some op → DerivesExpr true ts a → Begun (.binary l op a) (ts ++ [⟨.mark m, l⟩])
  | binding {l : Location} {n : Ident} (l₁ l₂ : Location) : Begun (.binding l n)
    [⟨.keyword .letWord, l⟩, ⟨.identifier n, l₁⟩, ⟨.mark .assign, l₂⟩]
  | lambda {l : Location} {ps : List Ident} {ts : List Token} (l₁ l₂ l₃ : Location) :
    Derives .params ts ps → Begun (.lambda l ps) ([⟨.keyword .fnWord, l⟩, ⟨.mark .leftParen, l₁⟩] ++
      ts ++ [⟨.mark .rightParen, l₂⟩, ⟨.mark .arrow, l₃⟩])
  | otherwise {l : Location} {a b : Expr} {ts us : List Token} (l₁ l₂ : Location) :
    DerivesExpr false ts a → DerivesExpr false us b → Begun (.otherwise l a b)
      (⟨.keyword .ifWord, l⟩ :: ts ++ ⟨.keyword .thenWord, l₁⟩ :: us ++ [⟨.keyword .elseWord, l₂⟩])
  | armBody {l k : Location} {e : Expr} {arms : List Arm} {x : Ident} {ts : List Token}
    (l₁ l₂ : Location) : BegunSelect l e arms ts → Begun (.armBody l e arms k x none)
      (ts ++ [⟨.mark .bar, k⟩, ⟨.identifier x, l₁⟩, ⟨.keyword .thenWord, l₂⟩])
  | guardedBody {l k : Location} {e g : Expr} {arms : List Arm} {x : Ident} {ts us : List Token}
    (l₁ l₂ l₃ : Location) : BegunSelect l e arms ts → DerivesExpr false us g →
      Begun (.armBody l e arms k x (some g)) (ts ++ [⟨.mark .bar, k⟩, ⟨.identifier x, l₁⟩,
        ⟨.keyword .andWord, l₂⟩] ++ us ++ [⟨.keyword .thenWord, l₃⟩])
  | publicBinding {l : Location} {n : Ident} (l₁ l₂ l₃ : Location) : Begun (.publicBinding l n)
    [⟨.keyword .pubWord, l⟩, ⟨.keyword .letWord, l₁⟩, ⟨.identifier n, l₂⟩, ⟨.mark .assign, l₃⟩]
  | variation {l : Location} {n : Ident} (l₁ l₂ : Location) : Begun (.variation l n)
    [⟨.keyword .varWord, l⟩, ⟨.identifier n, l₁⟩, ⟨.mark .assign, l₂⟩]
  | condition (l : Location) : Begun (.condition l) [⟨.keyword .ifWord, l⟩]
  | consequence {l : Location} {a : Expr} {ts : List Token} (l₁ : Location) :
    DerivesExpr false ts a →
      Begun (.consequence l a) (⟨.keyword .ifWord, l⟩ :: ts ++ [⟨.keyword .thenWord, l₁⟩])
  | subject (l : Location) : Begun (.subject l) [⟨.keyword .matchWord, l⟩]
  | guard {l k : Location} {e : Expr} {arms : List Arm} {x : Ident} {ts : List Token}
    (l₁ l₂ : Location) : BegunSelect l e arms ts → Begun (.guard l e arms k x)
      (ts ++ [⟨.mark .bar, k⟩, ⟨.identifier x, l₁⟩, ⟨.keyword .andWord, l₂⟩])
  | group (l : Location) : Begun (.group l) [⟨.mark .leftParen, l⟩]
  | arguments {f : Expr} {done : List Expr} {ts us : List Token} (l₁ : Location) :
    Derives .applied ts f → BegunList done us →
      Begun (.arguments f done) (ts ++ ⟨.mark .leftParen, l₁⟩ :: us)
  | list {l : Location} {done : List Expr} {ts : List Token} : BegunList done ts →
    Begun (.list l done) (⟨.mark .leftBracket, l⟩ :: ts)
  | rangeStop {l : Location} {a : Expr} {ts : List Token} (l₁ : Location) :
    DerivesExpr false ts a →
      Begun (.rangeStop l a) (⟨.mark .leftBracket, l⟩ :: ts ++ [⟨.mark .dots, l₁⟩])
  | iterable {l : Location} {e : Expr} {x : Ident} {ts : List Token} (l₁ l₂ l₃ : Location) :
    DerivesExpr false ts e → Begun (.iterable l e x) (⟨.mark .leftBracket, l⟩ :: ts ++
      [⟨.keyword .forWord, l₁⟩, ⟨.identifier x, l₂⟩, ⟨.keyword .inWord, l₃⟩])
  | filter {l : Location} {e b : Expr} {x : Ident} {ts us : List Token} (l₁ l₂ l₃ l₄ : Location) :
    DerivesExpr false ts e → DerivesExpr false us b → Begun (.filter l e x b)
      (⟨.mark .leftBracket, l⟩ :: ts ++ [⟨.keyword .forWord, l₁⟩, ⟨.identifier x, l₂⟩,
        ⟨.keyword .inWord, l₃⟩] ++ us ++ [⟨.keyword .ifWord, l₄⟩])
  | block {l : Location} {done : List Stmt} {ts : List Token} : BegunItems done ts →
    Begun (.block l done) (⟨.mark .leftBrace, l⟩ :: ts)
  | moduleBody {l : Location} {isPublic : Bool} {n : Ident} {done : List Stmt}
    {ts us : List Token} : BegunModule l isPublic n ts → BegunItems done us →
      Begun (.moduleBody l isPublic n done) (ts ++ us)
  | program {done : List Stmt} {ts : List Token} : BegunItems done ts → Begun (.program done) ts

/-- The tokens of the fixed beginning of a construct. -/
inductive Reader.Head.Begun : Head → List Token → Prop where
  | pubWord (l : Location) : Begun (.pubWord l) [⟨.keyword .pubWord, l⟩]
  | letWord (l : Location) : Begun (.letWord l false) [⟨.keyword .letWord, l⟩]
  | publicLetWord (l l₁ : Location) :
    Begun (.letWord l true) [⟨.keyword .pubWord, l⟩, ⟨.keyword .letWord, l₁⟩]
  | letName (l l₁ : Location) (n : Ident) :
    Begun (.letName l false n) [⟨.keyword .letWord, l⟩, ⟨.identifier n, l₁⟩]
  | publicLetName (l l₁ l₂ : Location) (n : Ident) : Begun (.letName l true n)
    [⟨.keyword .pubWord, l⟩, ⟨.keyword .letWord, l₁⟩, ⟨.identifier n, l₂⟩]
  | varWord (l : Location) : Begun (.varWord l) [⟨.keyword .varWord, l⟩]
  | varName (l l₁ : Location) (n : Ident) :
    Begun (.varName l n) [⟨.keyword .varWord, l⟩, ⟨.identifier n, l₁⟩]
  | modWord (l : Location) : Begun (.modWord l false) [⟨.keyword .modWord, l⟩]
  | publicModWord (l l₁ : Location) :
    Begun (.modWord l true) [⟨.keyword .pubWord, l⟩, ⟨.keyword .modWord, l₁⟩]
  | modName (l l₁ : Location) (n : Ident) :
    Begun (.modName l false n) [⟨.keyword .modWord, l⟩, ⟨.identifier n, l₁⟩]
  | publicModName (l l₁ l₂ : Location) (n : Ident) : Begun (.modName l true n)
    [⟨.keyword .pubWord, l⟩, ⟨.keyword .modWord, l₁⟩, ⟨.identifier n, l₂⟩]
  | impWord (l : Location) : Begun (.impWord l []) [⟨.keyword .impWord, l⟩]
  | impComma {l : Location} {ns : List Ident} {ts : List Token} (l₁ : Location) :
    Derives .importNames ts ns →
      Begun (.impWord l ns) (⟨.keyword .impWord, l⟩ :: ts ++ [⟨.mark .comma, l₁⟩])
  | impName {l : Location} {ns : List Ident} {ts : List Token} : Derives .importNames ts ns →
    Begun (.impName l ns) (⟨.keyword .impWord, l⟩ :: ts)
  | fromWord {l : Location} {ns : List Ident} {ts : List Token} (l₁ : Location) :
    Derives .importNames ts ns →
      Begun (.fromWord l ns) (⟨.keyword .impWord, l⟩ :: ts ++ [⟨.keyword .fromWord, l₁⟩])
  | fnWord (l : Location) : Begun (.fnWord l) [⟨.keyword .fnWord, l⟩]
  | fnParen (l l₁ : Location) :
    Begun (.fnParen l) [⟨.keyword .fnWord, l⟩, ⟨.mark .leftParen, l₁⟩]
  | fnComma {l : Location} {ps : List Ident} {ts : List Token} (l₁ l₂ : Location) :
    Derives .paramList ts ps → Begun (.fnComma l ps)
      ([⟨.keyword .fnWord, l⟩, ⟨.mark .leftParen, l₁⟩] ++ ts ++ [⟨.mark .comma, l₂⟩])
  | fnParam {l : Location} {ps : List Ident} {ts : List Token} (l₁ : Location) :
    Derives .paramList ts ps →
      Begun (.fnParam l ps) ([⟨.keyword .fnWord, l⟩, ⟨.mark .leftParen, l₁⟩] ++ ts)
  | fnParams {l : Location} {ps : List Ident} {ts : List Token} (l₁ l₂ : Location) :
    Derives .params ts ps → Begun (.fnParams l ps)
      ([⟨.keyword .fnWord, l⟩, ⟨.mark .leftParen, l₁⟩] ++ ts ++ [⟨.mark .rightParen, l₂⟩])
  | bar {l k : Location} {e : Expr} {arms : List Arm} {ts : List Token} :
    BegunSelect l e arms ts → Begun (.bar l e arms k) (ts ++ [⟨.mark .bar, k⟩])
  | binder {l k : Location} {e : Expr} {arms : List Arm} {x : Ident} {ts : List Token}
    (l₁ : Location) : BegunSelect l e arms ts →
      Begun (.binder l e arms k x) (ts ++ [⟨.mark .bar, k⟩, ⟨.identifier x, l₁⟩])
  | forWord {l : Location} {e : Expr} {ts : List Token} (l₁ : Location) :
    DerivesExpr false ts e →
      Begun (.forWord l e) (⟨.mark .leftBracket, l⟩ :: ts ++ [⟨.keyword .forWord, l₁⟩])
  | forName {l : Location} {e : Expr} {x : Ident} {ts : List Token} (l₁ l₂ : Location) :
    DerivesExpr false ts e → Begun (.forName l e x)
      (⟨.mark .leftBracket, l⟩ :: ts ++ [⟨.keyword .forWord, l₁⟩, ⟨.identifier x, l₂⟩])

namespace Grammar

/-- The tokens of all constructs that have begun, the innermost last. -/
inductive Stacked : List Pending → List Token → Prop where
  | nil : Stacked [] []
  | cons {p : Pending} {rest : List Pending} {ts us : List Token} : Stacked rest ts →
    p.Begun us → Stacked (p :: rest) (ts ++ us)

/-- Waits for statements. -/
def IsBody : Pending → Prop
  | .block _ _ | .moduleBody _ _ _ _ | .program _ => True
  | _ => False

/-- May be closed at once. -/
def IsFresh : Pending → Prop
  | .group _ | .arguments _ [] | .list _ [] => True
  | _ => False

/-- The reader has been given these tokens and has lost none of them. -/
inductive Accounts : Reader → List Token → Prop where
  | item {p : Pending} {rest : List Pending} {ts : List Token} : IsBody p →
    Stacked (p :: rest) ts → Accounts ⟨p :: rest, .item⟩ ts
  | operand {pending : List Pending} {ts : List Token} : Stacked pending ts →
    Accounts ⟨pending, .operand⟩ ts
  | operandOrClose {p : Pending} {rest : List Pending} {ts : List Token} : IsFresh p →
    Stacked (p :: rest) ts → Accounts ⟨p :: rest, .operandOrClose⟩ ts
  | more {pending : List Pending} {e : Expr} {ts us : List Token} : Stacked pending ts →
    Derives .applied us e → Accounts ⟨pending, .more e none⟩ (ts ++ us)
  /-- A flaw is sure to be reported. -/
  | flawed (pending : List Pending) (e : Expr) (flaw : Report) (ts : List Token) :
    Accounts ⟨pending, .more e (some flaw)⟩ ts
  | ended {pending : List Pending} {s : Stmt} {ts us : List Token} : Stacked pending ts →
    Derives .declaration us s → Accounts ⟨pending, .ended s⟩ (ts ++ us)
  | within {pending : List Pending} {h : Head} {ts us : List Token} : Stacked pending ts →
    h.Begun us → Accounts ⟨pending, .within h⟩ (ts ++ us)

variable {p : Pending} {pending rest : List Pending} {l : Location} {e : Expr} {shut : Bool}
  {ts us vs : List Token}

theorem DerivesExpr.mono {b : Bool} (h : DerivesExpr shut ts e) (hb : b = true → shut = true) :
    DerivesExpr b ts e := by
  obtain ⟨t, htokens, hvalue, hclear, hshut⟩ := h
  exact ⟨t, htokens, hvalue, hclear, fun h => hshut (hb h)⟩

theorem DerivesExpr.open (h : DerivesExpr shut ts e) : DerivesExpr false ts e :=
  h.mono fun hb => by cases hb

theorem Derives.operand (h : Derives .applied ts e) : DerivesExpr true ts e := by
  obtain ⟨t, htokens, hvalue, hclear⟩ := h
  exact ⟨.operand t, htokens, hvalue, hclear, fun _ => rfl⟩

/-! ## Ends of constructs that are open to the right -/

theorem ends_unary {op : UnaryOp} (hp : (Pending.unary l op).Begun us) (h : DerivesExpr shut vs e) :
    DerivesExpr shut (us ++ vs) (.unary l op e) := by
  cases hp with
  | unary hop =>
    obtain ⟨t, rfl, hvalue, hclear, hshut⟩ := h
    refine ⟨.unary l hop t, rfl, ?_, hclear, hshut⟩
    rw [Tree.value?, hvalue]
    rfl

theorem ends_binary {op : BinaryOp} {a : Expr} (hp : (Pending.binary l op a).Begun us)
    (h : DerivesExpr shut vs e) : DerivesExpr shut (us ++ vs) (.binary l op a e) := by
  cases hp with
  | binary hop ha =>
    obtain ⟨t, rfl, hvalue, hclear, hshut⟩ := h
    obtain ⟨t', rfl, hvalue', hclear', hshut'⟩ := ha
    refine ⟨.binary l hop t' t, ?_, ?_, ?_, fun hb => ?_⟩
    · simp [Tree.tokens]
    · rw [Tree.value?, hvalue', hvalue]
      rfl
    · exact Bool.and_eq_true_iff.mpr ⟨hclear', hclear⟩
    · exact Bool.or_eq_false_iff.mpr ⟨hshut' rfl, hshut hb⟩

theorem ends_binding {n : Ident} (hp : (Pending.binding l n).Begun us)
    (h : DerivesExpr shut vs e) : DerivesExpr shut (us ++ vs) (.binding l n (e.named n)) := by
  cases hp with
  | binding l₁ l₂ =>
    obtain ⟨t, rfl, hvalue, hclear, hshut⟩ := h
    refine ⟨.binding l l₁ l₂ n t, rfl, ?_, hclear, hshut⟩
    rw [Tree.value?, hvalue]
    rfl

theorem ends_lambda {ps : List Ident} (hp : (Pending.lambda l ps).Begun us) (hps : ps.Nodup)
    (h : DerivesExpr shut vs e) : DerivesExpr shut (us ++ vs) (.lambda l none ps e) := by
  cases hp with
  | lambda l₁ l₂ l₃ hparams =>
    obtain ⟨t, rfl, hvalue, hclear, hshut⟩ := h
    obtain ⟨t', rfl, hvalue', -⟩ := hparams
    refine ⟨.lambda l l₁ l₂ l₃ t' t, rfl, ?_, hclear, hshut⟩
    rw [Tree.value?, hvalue', hvalue]
    exact if_pos hps

theorem ends_otherwise {a b : Expr} (hp : (Pending.otherwise l a b).Begun us)
    (h : DerivesExpr shut vs e) : DerivesExpr shut (us ++ vs) (.cond l a b e) := by
  cases hp with
  | otherwise l₁ l₂ ha hb =>
    obtain ⟨t, rfl, hvalue, hclear, hshut⟩ := h
    obtain ⟨ta, rfl, hvaluea, hcleara, -⟩ := ha
    obtain ⟨tb, rfl, hvalueb, hclearb, -⟩ := hb
    refine ⟨.cond l l₁ l₂ ta tb t, ?_, ?_, ?_, hshut⟩
    · simp [Tree.tokens]
    · rw [Tree.value?, hvaluea, hvalueb, hvalue]
      rfl
    · have hbranches : (tb.clear true && t.clear true) = true :=
        Bool.and_eq_true_iff.mpr ⟨hclearb, hclear⟩
      exact Bool.and_eq_true_iff.mpr ⟨hcleara, hbranches⟩

theorem BegunSelect.add {subject : Expr} {arms : List Arm} {arm : Arm}
    (h : BegunSelect l subject arms us) (ha : Derives .arm vs arm) :
    BegunSelect l subject (arms ++ [arm]) (us ++ vs) := by
  obtain ⟨ta, rfl, hvalue, hclear⟩ := ha
  cases h with
  | subject hs =>
    have harms : Derives .arms ta.tokens [arm] := by
      refine ⟨.oneArm ta, rfl, ?_, hclear⟩
      rw [Tree.value?, hvalue]
      rfl
    exact .arms hs harms
  | arms hs harms =>
    obtain ⟨tas, rfl, hvalues, hclears⟩ := harms
    have harms : Derives .arms (tas.tokens ++ ta.tokens) (arms ++ [arm]) := by
      refine ⟨.moreArms tas ta, rfl, ?_, ?_⟩
      · rw [Tree.value?, hvalues, hvalue]
        rfl
      · exact Bool.and_eq_true_iff.mpr ⟨hclears, hclear⟩
    rw [List.append_assoc]
    exact .arms hs harms

/-- The arm whose body ends, behind the arms before it. -/
theorem begunSelect_of_armBody {k : Location} {subject : Expr} {arms : List Arm} {x : Ident}
    {guard : Option Expr} (hp : (Pending.armBody l subject arms k x guard).Begun us)
    (h : DerivesExpr false vs e) :
    BegunSelect l subject (arms ++ [.mk k x guard e]) (us ++ vs) := by
  obtain ⟨t, rfl, hvalue, hclear, -⟩ := h
  cases hp with
  | armBody l₁ l₂ hselect =>
    rw [List.append_assoc]
    refine hselect.add ⟨.arm k l₁ l₂ x t, rfl, ?_, hclear⟩
    rw [Tree.value?, hvalue]
    rfl
  | guardedBody l₁ l₂ l₃ hselect hguard =>
    obtain ⟨tg, rfl, hvalueg, hclearg, -⟩ := hguard
    rw [List.append_assoc, List.append_assoc, List.append_assoc]
    refine hselect.add ⟨.guardedArm k l₁ l₂ l₃ x tg t, ?_, ?_, ?_⟩
    · simp [Tree.tokens]
    · rw [Tree.value?, hvalueg, hvalue]
      rfl
    · exact Bool.and_eq_true_iff.mpr ⟨hclearg, hclear⟩

theorem BegunSelect.ends {subject : Expr} {arms : List Arm} (h : BegunSelect l subject arms us)
    (hne : arms ≠ []) : DerivesExpr false us (.select l subject arms) := by
  cases h with
  | subject => exact absurd rfl hne
  | arms hs harms =>
    obtain ⟨t, rfl, hvalue, hclear, hshut⟩ := hs
    obtain ⟨tas, rfl, hvalues, hclears⟩ := harms
    refine ⟨.select l t tas, rfl, ?_, ?_, fun hb => by cases hb⟩
    · rw [Tree.value?, hvalue, hvalues]
      rfl
    · have hsubject : (!t.trailing true) = true := by
        rw [hshut rfl]
        rfl
      have hparts : (t.clear true && tas.clear true) = true :=
        Bool.and_eq_true_iff.mpr ⟨hclear, hclears⟩
      exact Bool.and_eq_true_iff.mpr ⟨hsubject, hparts⟩

theorem Stacked.pop (h : Stacked (p :: rest) ts) :
    ∃ us vs, ts = us ++ vs ∧ Stacked rest us ∧ p.Begun vs := by
  cases h with
  | cons hrest hp => exact ⟨_, _, rfl, hrest, hp⟩

/-- What an expression ends gives the tokens of the construct to the expression. -/
theorem settleOperators_derives (level : Nat) (hs : Stacked pending ts)
    (he : DerivesExpr true us e) :
    ∃ ts' us', Stacked (settleOperators level pending e).1 ts' ∧
      DerivesExpr true us' (settleOperators level pending e).2 ∧ ts' ++ us' = ts ++ us := by
  induction pending generalizing ts us e with
  | nil => exact ⟨ts, us, hs, he, rfl⟩
  | cons p rest ih =>
    cases p with
    | unary l op =>
      obtain ⟨ts, vs, rfl, hrest, hp⟩ := hs.pop
      obtain ⟨ts', us', hs', he', heq⟩ := ih hrest (ends_unary hp he)
      exact ⟨ts', us', hs', he', heq.trans (List.append_assoc ..).symm⟩
    | binary l op a =>
      unfold settleOperators
      split
      · obtain ⟨ts, vs, rfl, hrest, hp⟩ := hs.pop
        obtain ⟨ts', us', hs', he', heq⟩ := ih hrest (ends_binary hp he)
        exact ⟨ts', us', hs', he', heq.trans (List.append_assoc ..).symm⟩
      · exact ⟨ts, us, hs, he, rfl⟩
    | _ => exact ⟨ts, us, hs, he, rfl⟩

/-- The same where all ends that is open to the right; before a bar no match does. -/
theorem settle_derives {atBar : Bool} {q : List Pending × Expr} (hs : Stacked pending ts)
    (he : DerivesExpr atBar us e) (h : settle atBar pending e = .ok q) :
    ∃ ts' us', Stacked q.1 ts' ∧ DerivesExpr atBar us' q.2 ∧ ts' ++ us' = ts ++ us := by
  induction pending generalizing ts us e with
  | nil =>
    cases h
    exact ⟨ts, us, hs, he, rfl⟩
  | cons p rest ih =>
    have hstep : ∀ {e' : Expr}, (∀ vs, p.Begun vs → DerivesExpr atBar (vs ++ us) e') →
        settle atBar rest e' = .ok q →
          ∃ ts' us', Stacked q.1 ts' ∧ DerivesExpr atBar us' q.2 ∧ ts' ++ us' = ts ++ us := by
      intro e' hends hq
      obtain ⟨ts, vs, rfl, hrest, hp⟩ := hs.pop
      obtain ⟨ts', us', hs', he', heq⟩ := ih hrest (hends vs hp) hq
      exact ⟨ts', us', hs', he', heq.trans (List.append_assoc ..).symm⟩
    cases p with
    | unary l op => exact hstep (fun _ hp => ends_unary hp he) h
    | binary l op a => exact hstep (fun _ hp => ends_binary hp he) h
    | binding l n => exact hstep (fun _ hp => ends_binding hp he) h
    | lambda l ps =>
      unfold settle at h
      split at h
      · rename_i hps
        exact hstep (fun _ hp => ends_lambda hp hps he) h
      · cases h
    | otherwise l a b => exact hstep (fun _ hp => ends_otherwise hp he) h
    | armBody l subject arms k x guard =>
      cases atBar with
      | true =>
        cases h
        exact ⟨ts, us, hs, he, rfl⟩
      | false =>
        refine hstep (fun _ hp => ?_) h
        exact (begunSelect_of_armBody hp he).ends (by simp)
    | _ =>
      cases h
      exact ⟨ts, us, hs, he, rfl⟩

end Grammar

end ModuleScript
