import ModuleScript.Proofs.Reading.Feeding

/-!
# What readers take

What may follow where an expression or a statement has been read. All constructs that are open to the
right end before a closing token, down to the one that awaits it; before a bar they end down to the
innermost match, if one of them is an arm.
-/

set_option autoImplicit false

namespace ModuleScript.Grammar

open Reader

/-- The reports about what a construct is made of, as opposed to the order of tokens. -/
inductive Semantic : Report → Prop where
  | duplicateParameter (l : Location) : Semantic (Cause.duplicateParameter.reportAt l)
  | variationWithoutFunction (n : Ident) (l : Location) :
    Semantic ((Cause.variationWithoutFunction n).reportAt l)
  | declarationInBlock (l : Location) : Semantic (Cause.declarationInBlock.reportAt l)

/-- A result as stated, or a report about what a construct is made of. -/
inductive Accepts {α : Type} (P : α → Prop) : Except Report α → Prop where
  | ok {a : α} : P a → Accepts P (.ok a)
  | flaw {f : Report} : Semantic f → Accepts P (.error f)

/-- The reader takes the tokens and gets to where `P` holds. -/
def Takes (r : Reader) (ts : List Token) (P : Reader → Prop) : Prop := Accepts P (r.feedAll ts)

section Takes

variable {α β : Type} {P Q : Reader → Prop} {r : Reader} {t : Token} {ts us : List Token}

theorem Accepts.imp {P Q : α → Prop} {x : Except Report α} (h : Accepts P x)
    (hPQ : ∀ a, P a → Q a) : Accepts Q x := by
  cases h with
  | ok ha => exact .ok (hPQ _ ha)
  | flaw hf => exact .flaw hf

theorem Accepts.bind {P : α → Prop} {Q : β → Prop} {x : Except Report α}
    {f : α → Except Report β} (h : Accepts P x) (hf : ∀ a, P a → Accepts Q (f a)) :
    Accepts Q (x.bind f) := by
  cases h with
  | ok ha => exact hf _ ha
  | flaw hf => exact .flaw hf

theorem takes_nil (h : P r) : Takes r [] P := .ok h

theorem takes_cons (h : Accepts (fun r' => Takes r' ts P) (r.feed t)) : Takes r (t :: ts) P := by
  change Accepts P ((r.feed t).bind (·.feedAll ts))
  exact h.bind fun _ hr => hr

/-- One token that leads to a known place. -/
theorem takes_step {r' : Reader} (hfeed : r.feed t = .ok r') (h : Takes r' ts P) :
    Takes r (t :: ts) P := by
  apply takes_cons
  rw [hfeed]
  exact .ok h

theorem Takes.append (h : Takes r ts P) (hP : ∀ r', P r' → Takes r' us Q) :
    Takes r (ts ++ us) Q := by
  unfold Takes
  rw [feedAll_append]
  exact Accepts.bind h hP

theorem Takes.imp (h : Takes r ts P) (hPQ : ∀ r', P r' → Q r') : Takes r ts Q :=
  Accepts.imp h hPQ

end Takes

/-! ## Constructs that are open to the right -/

/-- The construct ends where the token after its last part cannot belong to it. -/
def isOpen : Pending → Bool
  | .unary _ _ | .binary _ _ _ | .binding _ _ | .lambda _ _ | .otherwise _ _ _
  | .armBody _ _ _ _ _ _ => true
  | _ => false

def isArm : Pending → Bool
  | .armBody _ _ _ _ _ _ => true
  | _ => false

variable {opened base pending : List Pending} {e : Expr} {armed : Bool} {r : Reader}

theorem settleOperators_open (hopen : ∀ p ∈ opened, isOpen p = true) (hbase : Firm base)
    (level : Nat) (e : Expr) : ∃ opened' e', settleOperators level (opened ++ base) e =
      (opened' ++ base, e') ∧ (∀ p ∈ opened', isOpen p = true) ∧
        opened'.any isArm = opened.any isArm := by
  induction opened generalizing e with
  | nil => exact ⟨[], e, hbase.operators level e, hopen, rfl⟩
  | cons p opened ih =>
    have hrest := ih fun q hq => hopen q (.tail _ hq)
    cases p with
    | unary l op => exact hrest _
    | binary l op left =>
      by_cases hlevel : level ≤ op.level
      · obtain ⟨opened', e', hsettle, hall, harm⟩ := hrest (.binary l op left e)
        refine ⟨opened', e', ?_, hall, harm⟩
        rw [List.cons_append, settleOperators, if_pos hlevel, hsettle]
      · refine ⟨.binary l op left :: opened, e, ?_, hopen, rfl⟩
        rw [List.cons_append, settleOperators, if_neg hlevel]
    | _ => exact ⟨_, e, rfl, hopen, rfl⟩

/-- All that is open ends, down to what awaits a token of its own; a bar finds the innermost arm that
is open, if there is one. -/
theorem settle_opened (atBar : Bool) (hopen : ∀ p ∈ opened, isOpen p = true) (hbase : Firm base)
    (e : Expr) : Accepts (fun q => if atBar && opened.any isArm then
        ∃ l subject arms k x guard opened', (∀ p ∈ opened', isOpen p = true) ∧
          q.1 = .armBody l subject arms k x guard :: (opened' ++ base)
      else q.1 = base) (settle atBar (opened ++ base) e) := by
  induction opened generalizing e with
  | nil =>
    rw [List.nil_append, hbase.settle, List.any_nil, Bool.and_false]
    exact .ok rfl
  | cons p opened ih =>
    have hrest := ih fun q hq => hopen q (.tail _ hq)
    cases p with
    | unary l op => exact hrest _
    | binary l op left => exact hrest _
    | binding l n => exact hrest _
    | lambda l ps =>
      rw [List.cons_append, settle]
      by_cases hps : ps.Nodup
      · rw [if_pos hps]
        exact hrest _
      · rw [if_neg hps]
        exact .flaw (.duplicateParameter l)
    | otherwise l a b => exact hrest _
    | armBody l subject arms k x guard =>
      cases atBar with
      | true =>
        exact .ok ⟨l, subject, arms, k, x, guard, opened, fun q hq => hopen q (.tail _ hq), rfl⟩
      | false => exact hrest _
    | _ => exact absurd (hopen _ (.head _)) Bool.false_ne_true

theorem settle_open (hopen : ∀ p ∈ opened, isOpen p = true) (hbase : Firm base) (e : Expr) :
    Accepts (fun q => q.1 = base) (settle false (opened ++ base) e) :=
  settle_opened false hopen hbase e

/-! ## After an expression -/

/-- An operand has been read, and nothing else has changed. -/
def Stays (pending : List Pending) (r : Reader) : Prop :=
  ∃ e flaw, r = ⟨pending, .more e flaw⟩ ∧ ∀ f ∈ flaw, Semantic f

/-- An expression has been read; `armed` says whether an arm is open to the right. -/
def Reaches (base : List Pending) (armed : Bool) (r : Reader) : Prop :=
  ∃ opened, (∀ p ∈ opened, isOpen p = true) ∧ opened.any isArm = armed ∧ Stays (opened ++ base) r

theorem Stays.follow {P : Reader → Prop} {t : Token} {f : Follower}
    (hr : Stays pending r) (hf : follower? t.kind = some f)
    (h : ∀ e, Accepts P (continueWith t pending e none)) : Accepts P (r.feed t) := by
  obtain ⟨e, flaw, rfl, hflaw⟩ := hr
  cases flaw with
  | none => exact h e
  | some f =>
    change Accepts P (continueWith t pending e (some f))
    unfold continueWith
    rw [hf]
    exact .flaw (hflaw f rfl)

theorem Reaches.operator {t : Token} {op : BinaryOp} (hr : Reaches base armed r)
    (hbase : Firm base) (hf : follower? t.kind = some (.operator op)) :
    Accepts (fun r' => ∃ opened, r' = ⟨opened ++ base, .operand⟩ ∧
      (∀ p ∈ opened, isOpen p = true) ∧ opened.any isArm = armed) (r.feed t) := by
  obtain ⟨opened, hopen, harmed, hr⟩ := hr
  apply hr.follow hf
  intro e
  obtain ⟨opened', e', hsettle, hopen', harm⟩ := settleOperators_open hopen hbase op.level e
  unfold continueWith
  rw [hf]
  dsimp only
  rw [hsettle]
  refine .ok ⟨.binary t.location op e' :: opened', rfl, ?_, ?_⟩
  · intro p hp
    rcases List.mem_cons.mp hp with rfl | hp
    · rfl
    · exact hopen' p hp
  · exact harm.trans harmed

theorem Reaches.closer {P : Reader → Prop} {t : Token} {c : Closer} (hr : Reaches base armed r)
    (hbase : Firm base) (hf : follower? t.kind = some (.closer c)) (hc : (c == .bar) = false)
    (h : ∀ e, Accepts P (close t c base e)) : Accepts P (r.feed t) := by
  obtain ⟨opened, hopen, -, hr⟩ := hr
  apply hr.follow hf
  intro e
  unfold continueWith
  rw [hf]
  dsimp only
  rw [hc]
  refine (settle_open hopen hbase e).bind ?_
  rintro ⟨_, e'⟩ rfl
  exact h e'

/-- A bar begins another arm. -/
def AtBar (base : List Pending) (r : Reader) : Prop :=
  ∀ k, Accepts (fun r' => ∃ opened l subject arms,
    r' = ⟨opened ++ base, .within (.bar l subject arms k)⟩ ∧ ∀ p ∈ opened, isOpen p = true)
      (r.feed ⟨.mark .bar, k⟩)

theorem Reaches.atBar (hr : Reaches base true r) (hbase : Firm base) : AtBar base r := by
  intro k
  obtain ⟨opened, hopen, harmed, hr⟩ := hr
  apply hr.follow (f := .closer .bar) rfl
  intro e
  have hsettle := settle_opened true hopen hbase e
  rw [harmed] at hsettle
  refine hsettle.bind ?_
  rintro ⟨_, e'⟩ ⟨l, subject, arms, k', x, guard, opened', hopen', rfl⟩
  exact .ok ⟨opened', l, subject, _, rfl, hopen'⟩

theorem Reaches.subject_atBar {l : Location} (hr : Reaches (.subject l :: (opened ++ base)) false r)
    (hopen : ∀ p ∈ opened, isOpen p = true) : AtBar base r := by
  intro k
  obtain ⟨opened', hopen', harmed, hr⟩ := hr
  apply hr.follow (f := .closer .bar) rfl
  intro e
  have hsubject : Firm (.subject l :: (opened ++ base)) := ⟨fun _ _ => rfl, fun _ _ => rfl⟩
  have hsettle := settle_opened true hopen' hsubject e
  rw [harmed] at hsettle
  refine hsettle.bind ?_
  rintro ⟨_, e'⟩ rfl
  exact .ok ⟨opened, l, e', [], rfl, hopen⟩

/-! ## Statements and bodies -/

variable {p : List Stmt → List Pending}

/-- A statement, or nothing, has been read where a statement may stand. -/
structure Completed (p : List Stmt → List Pending) (r : Reader) : Prop where
  separator : ∀ t : Token, t.kind = .newline ∨ t.kind = .mark .semicolon →
    Accepts (fun r' => ∃ done, r' = ⟨p done, .item⟩) (r.feed t)
  brace : ∀ l, ∀ P : Reader → Prop, (∀ done, Accepts P (closeBody ⟨.mark .rightBrace, l⟩ (p done))) →
    Accepts P (r.feed ⟨.mark .rightBrace, l⟩)
  finish : p = (fun done => [.program done]) → Accepts (fun _ => True) r.finish

theorem completed_item (done : List Stmt) : Completed p ⟨p done, .item⟩ := by
  refine ⟨fun t ht => ?_, fun l P h => h done, ?_⟩
  · obtain ⟨_, l⟩ := t
    rcases ht with rfl | rfl
    · exact .ok ⟨done, rfl⟩
    · exact .ok ⟨done, rfl⟩
  · rintro rfl
    exact .ok trivial

theorem accepts_endStatement (hp : Body p) (done : List Stmt) (s : Stmt) (t : Token) :
    Accepts (fun r' => ∃ done, r' = ⟨p done, .item⟩) (endStatement t .separator s (p done)) := by
  unfold endStatement
  rw [hp.add]
  exact .ok ⟨_, rfl⟩

theorem accepts_endStatement_brace (hp : Body p) {P : Reader → Prop} {t : Token}
    (h : ∀ done, Accepts P (closeBody t (p done))) (done : List Stmt) (s : Stmt) :
    Accepts P (endStatement t .rightBrace s (p done)) := by
  unfold endStatement
  rw [hp.add]
  exact h _

theorem completed_ended (hp : Body p) (done : List Stmt) (s : Stmt) :
    Completed p ⟨p done, .ended s⟩ := by
  refine ⟨fun t ht => ?_, fun l P h => ?_, ?_⟩
  · have hend := accepts_endStatement hp done s t
    obtain ⟨_, l⟩ := t
    rcases ht with rfl | rfl
    · exact hend
    · exact hend
  · exact accepts_endStatement_brace hp h done s
  · rintro rfl
    exact .ok trivial

theorem Reaches.completed (hr : Reaches base armed r) (hbase : Firm base) (hp : Body p)
    {done : List Stmt} (h : ∀ e, Accepts (fun q => q.1 = p done) (statement base e)) :
    Completed p r := by
  refine ⟨fun t ht => ?_, fun l P hP => ?_, ?_⟩
  · have hf : follower? t.kind = some (.closer .separator) := by
      rcases ht with ht | ht <;> rw [ht] <;> rfl
    apply hr.closer hbase hf rfl
    intro e
    refine (h e).bind ?_
    rintro ⟨_, s⟩ rfl
    exact accepts_endStatement hp done s t
  · apply hr.closer hbase (c := .rightBrace) rfl rfl
    intro e
    refine (h e).bind ?_
    rintro ⟨_, s⟩ rfl
    exact accepts_endStatement_brace hp hP done s
  · rintro rfl
    obtain ⟨opened, hopen, -, e, flaw, rfl, hflaw⟩ := hr
    cases flaw with
    | some f => exact .flaw (hflaw f rfl)
    | none =>
      refine (settle_open hopen hbase e).bind ?_
      rintro ⟨_, e'⟩ rfl
      refine (h e').bind ?_
      rintro ⟨_, s⟩ rfl
      exact .ok trivial

end ModuleScript.Grammar
