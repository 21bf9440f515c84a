import ModuleScript.Proofs.Reading.Feeding

/-!
# What lies below

A reader mostly looks only at the constructs that have begun last. What has begun before them comes
into play when a token ends all of them; then it is as if only the last of what they come to had been
read. So what a reader does with tokens does not depend on what lies below, until one of them meets
it.
-/

set_option autoImplicit false

namespace ModuleScript.Reader

/-- The reader with further constructs begun before all of its own. -/
def onto (r : Reader) (base : List Pending) : Reader := ⟨r.pending ++ base, r.expect⟩

/-- The tokens that are about the constructs that have begun. -/
inductive Meets : Expect → Token.Kind → Prop where
  | operator {e : Expr} {k : Token.Kind} {op : BinaryOp} :
    follower? k = some (.operator op) → Meets (.more e none) k
  | closer {e : Expr} {k : Token.Kind} {c : Closer} :
    follower? k = some (.closer c) → Meets (.more e none) k
  | ended {s : Stmt} {k : Token.Kind} {c : Closer} :
    follower? k = some (.closer c) → Meets (.ended s) k
  | brace : Meets .item (.mark .rightBrace)
  | paren : Meets .operandOrClose (.mark .rightParen)
  | bracket : Meets .operandOrClose (.mark .rightBracket)

/-- What the reader does with the token is the same over every base. -/
def Steady (r : Reader) (t : Token) : Prop :=
  ∀ base, (r.onto base).feed t = (r.feed t).map (·.onto base)

/-- The token gets down to the base. -/
def Lands (r : Reader) (t : Token) (x : Expect) : Prop :=
  Meets x t.kind ∧ (∀ base, (r.onto base).feed t = feed ⟨base, x⟩ t) ∧
    (r.pending = [] → x = r.expect)

variable {above : List Pending} {p : Pending} {e : Expr} {t : Token}

/-! ## Ends of constructs -/

theorem settleOperators_onto (level : Nat) (above : List Pending) (e : Expr) :
    (∃ p above' e', ∀ base,
      settleOperators level (above ++ base) e = (p :: above' ++ base, e')) ∨
    ∃ e', (above = [] → e' = e) ∧
      ∀ base, settleOperators level (above ++ base) e = settleOperators level base e' := by
  induction above generalizing e with
  | nil => exact .inr ⟨e, fun _ => rfl, fun _ => rfl⟩
  | cons p above ih =>
    have hdown : ∀ e₁, (∀ base, settleOperators level (p :: above ++ base) e =
        settleOperators level (above ++ base) e₁) →
        (∃ q above' e', ∀ base,
          settleOperators level (p :: above ++ base) e = (q :: above' ++ base, e')) ∨
        ∃ e', (p :: above = [] → e' = e) ∧
          ∀ base, settleOperators level (p :: above ++ base) e = settleOperators level base e' := by
      intro e₁ hstep
      rcases ih e₁ with ⟨q, above', e', hstay⟩ | ⟨e', -, hdown⟩
      · exact .inl ⟨q, above', e', fun base => (hstep base).trans (hstay base)⟩
      · exact .inr ⟨e', nofun, fun base => (hstep base).trans (hdown base)⟩
    cases p with
    | unary l op => exact hdown (.unary l op e) fun _ => rfl
    | binary l op left =>
      by_cases hlevel : level ≤ op.level
      · exact hdown (.binary l op left e) fun _ => if_pos hlevel
      · exact .inl ⟨.binary l op left, above, e, fun _ => if_neg hlevel⟩
    | _ => exact .inl ⟨_, above, e, fun _ => rfl⟩

/-- The constructs that end stop short of the base, or the base is all that is left, or one of them
cannot stand. -/
theorem settle_onto (atBar : Bool) (above : List Pending) (e : Expr) :
    (∃ p above' e', ∀ base, settle atBar (above ++ base) e = .ok (p :: above' ++ base, e')) ∨
    (∃ e', (above = [] → e' = e) ∧
      ∀ base, settle atBar (above ++ base) e = settle atBar base e') ∨
    ∃ f, ∀ base, settle atBar (above ++ base) e = .error f := by
  induction above generalizing e with
  | nil => exact .inr (.inl ⟨e, fun _ => rfl, fun _ => rfl⟩)
  | cons p above ih =>
    have hdown : ∀ e₁, (∀ base, settle atBar (p :: above ++ base) e =
        settle atBar (above ++ base) e₁) →
        (∃ q above' e', ∀ base,
          settle atBar (p :: above ++ base) e = .ok (q :: above' ++ base, e')) ∨
        (∃ e', (p :: above = [] → e' = e) ∧
          ∀ base, settle atBar (p :: above ++ base) e = settle atBar base e') ∨
        ∃ f, ∀ base, settle atBar (p :: above ++ base) e = .error f := by
      intro e₁ hstep
      rcases ih e₁ with ⟨q, above', e', hstay⟩ | ⟨e', -, hdown⟩ | ⟨f, herror⟩
      · exact .inl ⟨q, above', e', fun base => (hstep base).trans (hstay base)⟩
      · exact .inr (.inl ⟨e', nofun, fun base => (hstep base).trans (hdown base)⟩)
      · exact .inr (.inr ⟨f, fun base => (hstep base).trans (herror base)⟩)
    cases p with
    | unary l op => exact hdown (.unary l op e) fun _ => rfl
    | binary l op left => exact hdown (.binary l op left e) fun _ => rfl
    | binding l n => exact hdown (.binding l n (e.named n)) fun _ => rfl
    | lambda l params =>
      by_cases hparams : params.Nodup
      · exact hdown (.lambda l none params e) fun _ => if_pos hparams
      · exact .inr (.inr ⟨_, fun _ => if_neg hparams⟩)
    | otherwise l condition yes => exact hdown (.cond l condition yes e) fun _ => rfl
    | armBody l subject arms armLocation binder guard =>
      cases atBar with
      | true => exact .inl ⟨_, above, e, fun _ => rfl⟩
      | false => exact hdown (.select l subject (arms ++ [.mk armLocation binder guard e])) fun _ => rfl
    | _ => exact .inl ⟨_, above, e, fun _ => rfl⟩

theorem closeBody_onto (base : List Pending) :
    closeBody t (p :: above ++ base) = (closeBody t (p :: above)).map (·.onto base) := by
  cases p <;> rfl

theorem endStatement_onto (c : Closer) (s : Stmt) (base : List Pending) :
    endStatement t c s (p :: above ++ base) =
      (endStatement t c s (p :: above)).map (·.onto base) := by
  cases p with
  | block | moduleBody | program =>
    unfold endStatement
    simp only [List.cons_append, addStatement?]
    split
    · exact closeBody_onto base
    · rfl
  | _ => rfl

/-! ## Tokens -/

theorem continueWith_operator {op : BinaryOp} (hf : follower? t.kind = some (.operator op))
    (pending : List Pending) (e : Expr) :
    continueWith t pending e none = .ok ⟨.binary t.location op
      (settleOperators op.level pending e).2 :: (settleOperators op.level pending e).1, .operand⟩ := by
  unfold continueWith
  rw [hf]

theorem continueWith_closer {c : Closer} (hf : follower? t.kind = some (.closer c))
    (pending : List Pending) (e : Expr) : continueWith t pending e none =
      (settle (c == .bar) pending e).bind fun q => close t c q.1 q.2 := by
  unfold continueWith
  rw [hf]
  rfl

theorem startOperand_onto (pending base : List Pending) :
    startOperand t (pending ++ base) = (startOperand t pending).map (·.onto base) := by
  obtain ⟨k, l⟩ := t
  cases k with
  | keyword k => cases k <;> rfl
  | mark m => cases m <;> rfl
  | _ => rfl

theorem advance_onto (pending base : List Pending) (h : Head) :
    advance t (pending ++ base) h = (advance t pending h).map (·.onto base) := by
  unfold advance
  dsimp only
  split <;> rfl

/-- A statement that ends, with something of it or around it left above the base. -/
theorem endStatement_above (c : Closer) (s : Stmt) (above : List Pending) :
    (∀ base, endStatement t c s (above ++ base) =
      (endStatement t c s above).map (·.onto base)) ∨ above = [] := by
  cases above with
  | nil => exact .inr rfl
  | cons p above => exact .inl (endStatement_onto c s)

/-- An expression is a statement by itself or ends one that has begun last. -/
theorem statement_cons (p : Pending) (e : Expr) :
    (∀ above, statement (p :: above) e = .ok (p :: above, .expr e)) ∨
    (∃ s, ∀ above, statement (p :: above) e = .ok (above, s)) ∨
    ∃ f, ∀ above, statement (p :: above) e = .error f := by
  cases p with
  | publicBinding l n => exact .inr (.inl ⟨_, fun _ => rfl⟩)
  | variation l n =>
    cases e with
    | lambda l' o params body => exact .inr (.inl ⟨_, fun _ => rfl⟩)
    | _ => exact .inr (.inr ⟨_, fun _ => rfl⟩)
  | _ => exact .inl fun _ => rfl

theorem statementEnd_onto (c : Closer) (p : Pending) (above : List Pending) (e : Expr) :
    (∀ base, (statement (p :: above ++ base) e).bind (fun q => endStatement t c q.2 q.1) =
      ((statement (p :: above) e).bind (fun q => endStatement t c q.2 q.1)).map (·.onto base)) ∨
    ∃ s, ∀ base, (statement (p :: above ++ base) e).bind (fun q => endStatement t c q.2 q.1) =
      endStatement t c s base := by
  rcases statement_cons p e with h | ⟨s, h⟩ | ⟨f, h⟩
  · refine .inl fun base => ?_
    rw [List.cons_append, h, h]
    exact endStatement_onto c (.expr e) base
  · rcases endStatement_above (t := t) c s above with hover | rfl
    · refine .inl fun base => ?_
      rw [List.cons_append, h, h]
      exact hover base
    · refine .inr ⟨s, fun base => ?_⟩
      rw [List.cons_append, h]
      rfl
  · refine .inl fun base => ?_
    rw [List.cons_append, h, h]
    rfl

/-- A token behind an expression, with something that has begun left above the base. -/
theorem close_onto {c : Closer} (hf : follower? t.kind = some (.closer c)) (p : Pending)
    (above : List Pending) (e : Expr) :
    (∀ base, close t c (p :: above ++ base) e = (close t c (p :: above) e).map (·.onto base)) ∨
    ∃ s, ∀ base, close t c (p :: above ++ base) e = feed ⟨base, .ended s⟩ t := by
  cases c with
  | separator =>
    rcases statementEnd_onto (t := t) .separator p above e with h | ⟨s, h⟩
    · exact .inl h
    · refine .inr ⟨s, fun base => (h base).trans ?_⟩
      change _ = endItem t s base
      unfold endItem
      rw [hf]
  | rightBrace =>
    rcases statementEnd_onto (t := t) .rightBrace p above e with h | ⟨s, h⟩
    · exact .inl h
    · refine .inr ⟨s, fun base => (h base).trans ?_⟩
      change _ = endItem t s base
      unfold endItem
      rw [hf]
  | dots | forWord =>
    cases p with
    | list l done => cases done <;> exact .inl fun _ => rfl
    | _ => exact .inl fun _ => rfl
  | _ => cases p <;> exact .inl fun _ => rfl

theorem feed_item_onto (pending : List Pending) (t : Token) :
    Steady ⟨pending, .item⟩ t ∨ ∃ x, Lands ⟨pending, .item⟩ t x := by
  obtain ⟨k, l⟩ := t
  cases k with
  | mark m =>
    cases m with
    | rightBrace =>
      cases pending with
      | nil => exact .inr ⟨_, .brace, fun _ => rfl, fun _ => rfl⟩
      | cons p above => exact .inl fun base => closeBody_onto base
    | _ => exact .inl fun _ => rfl
  | keyword k => cases k <;> exact .inl fun _ => rfl
  | _ => exact .inl fun _ => rfl

theorem feed_operandOrClose_onto (pending : List Pending) (t : Token) :
    Steady ⟨pending, .operandOrClose⟩ t ∨ ∃ x, Lands ⟨pending, .operandOrClose⟩ t x := by
  obtain ⟨k, l⟩ := t
  cases pending with
  | nil =>
    cases k with
    | mark m =>
      cases m with
      | rightParen => exact .inr ⟨_, .paren, fun _ => rfl, fun _ => rfl⟩
      | rightBracket => exact .inr ⟨_, .bracket, fun _ => rfl, fun _ => rfl⟩
      | _ => exact .inl fun _ => rfl
    | keyword k => cases k <;> exact .inl fun _ => rfl
    | _ => exact .inl fun _ => rfl
  | cons p above =>
    cases k with
    | mark m =>
      cases m with
      | rightParen | rightBracket => cases p <;> exact .inl fun _ => rfl
      | _ => exact .inl fun _ => rfl
    | keyword k => cases k <;> exact .inl fun _ => rfl
    | _ => exact .inl fun _ => rfl

theorem feed_more_onto (pending : List Pending) (e : Expr) (flaw : Option Report) (t : Token) :
    Steady ⟨pending, .more e flaw⟩ t ∨ ∃ x, Lands ⟨pending, .more e flaw⟩ t x := by
  cases hf : follower? t.kind with
  | none =>
    refine .inl fun base => ?_
    change continueWith t (pending ++ base) e flaw = (continueWith t pending e flaw).map _
    unfold continueWith
    rw [hf]
    rfl
  | some f =>
    cases flaw with
    | some r =>
      refine .inl fun base => ?_
      change continueWith t (pending ++ base) e (some r) = (continueWith t pending e (some r)).map _
      unfold continueWith
      rw [hf]
      rfl
    | none =>
      cases f with
      | arguments =>
        refine .inl fun base => ?_
        change continueWith t (pending ++ base) e none = (continueWith t pending e none).map _
        unfold continueWith
        rw [hf]
        rfl
      | operator op =>
        have hfeed : ∀ pending e, feed ⟨pending, .more e none⟩ t = _ := continueWith_operator hf
        rcases settleOperators_onto op.level pending e with ⟨p, above, e', h⟩ | ⟨e', he, h⟩
        · refine .inl fun base => ?_
          have hown := h []
          rw [List.append_nil, List.append_nil] at hown
          unfold onto
          rw [hfeed, hfeed, h, hown]
          rfl
        · refine .inr ⟨.more e' none, .operator hf, fun base => ?_, fun hnil => ?_⟩
          · unfold onto
            rw [hfeed, hfeed, h]
          · rw [he hnil]
      | closer c =>
        have hfeed : ∀ pending e, feed ⟨pending, .more e none⟩ t = _ := continueWith_closer hf
        rcases settle_onto (c == .bar) pending e with
          ⟨p, above, e', h⟩ | ⟨e', he, h⟩ | ⟨r, h⟩
        · have hown := h []
          rw [List.append_nil, List.append_nil] at hown
          have hclose : ∀ base, feed ⟨pending ++ base, .more e none⟩ t =
              close t c (p :: above ++ base) e' := by
            intro base
            rw [hfeed, h]
            rfl
          have hclose' : feed ⟨pending, .more e none⟩ t = close t c (p :: above) e' := by
            rw [hfeed, hown]
            rfl
          rcases close_onto hf p above e' with hover | ⟨s, hover⟩
          · refine .inl fun base => ?_
            unfold onto
            rw [hclose, hclose', hover]
            rfl
          · refine .inr ⟨.ended s, .ended hf, fun base => ?_, ?_⟩
            · exact (hclose base).trans (hover base)
            · rintro rfl
              cases h []
        · refine .inr ⟨.more e' none, .closer hf, fun base => ?_, fun hnil => ?_⟩
          · unfold onto
            rw [hfeed, hfeed, h]
          · rw [he hnil]
        · refine .inl fun base => ?_
          have hown := h []
          rw [List.append_nil] at hown
          unfold onto
          rw [hfeed, hfeed, h, hown]
          rfl

/-- What a reader does with a token does not depend on what lies below, unless the token gets down to
it. -/
theorem feed_onto (r : Reader) (t : Token) : Steady r t ∨ ∃ x, Lands r t x := by
  obtain ⟨pending, x⟩ := r
  cases x with
  | item => exact feed_item_onto pending t
  | operand => exact .inl (startOperand_onto pending)
  | operandOrClose => exact feed_operandOrClose_onto pending t
  | more e flaw => exact feed_more_onto pending e flaw t
  | ended s =>
    have hend : ∀ pending, feed ⟨pending, .ended s⟩ t = endItem t s pending := fun _ => rfl
    unfold endItem at hend
    cases hf : follower? t.kind with
    | none =>
      refine .inl fun base => ?_
      unfold onto
      rw [hend, hend, hf]
      rfl
    | some f =>
      cases pending with
      | nil =>
        cases f with
        | closer c => exact .inr ⟨_, .ended hf, fun _ => rfl, fun _ => rfl⟩
        | _ =>
          refine .inl fun base => ?_
          unfold onto
          rw [hend, hend, hf]
          rfl
      | cons p above =>
        refine .inl fun base => ?_
        unfold onto
        rw [hend, hend, hf]
        dsimp only
        cases f with
        | closer c =>
          cases c with
          | separator | rightBrace => exact endStatement_onto _ s base
          | _ => rfl
        | _ => rfl
  | within h => exact .inl fun base => advance_onto pending base h

/-- A reader that takes the tokens does so over every base, or there is a first token among them that
gets down to it. -/
theorem feedAll_onto (r : Reader) (ts : List Token) :
    (∀ base, (r.onto base).feedAll ts = (r.feedAll ts).map (·.onto base)) ∨
    ∃ us t vs r' x, ts = us ++ t :: vs ∧ Lands r' t x ∧
      ∀ base, (r.onto base).feedAll us = .ok (r'.onto base) := by
  induction ts generalizing r with
  | nil => exact .inl fun _ => rfl
  | cons t ts ih =>
    rcases feed_onto r t with hsteady | ⟨x, hlands⟩
    · cases hfeed : r.feed t with
      | error f =>
        refine .inl fun base => ?_
        change ((r.onto base).feed t).bind _ = ((r.feed t).bind _).map _
        rw [hsteady, hfeed]
        rfl
      | ok r₁ =>
        have hall : ∀ base us, (r.onto base).feedAll (t :: us) = (r₁.onto base).feedAll us := by
          intro base us
          change ((r.onto base).feed t).bind _ = _
          rw [hsteady, hfeed]
          rfl
        have hown : r.feedAll (t :: ts) = r₁.feedAll ts := by
          change (r.feed t).bind _ = _
          rw [hfeed]
          rfl
        rcases ih r₁ with hover | ⟨us, u, vs, r', x, rfl, hlands, hover⟩
        · refine .inl fun base => ?_
          rw [hall, hover, hown]
        · exact .inr ⟨t :: us, u, vs, r', x, rfl, hlands, fun base => (hall base us).trans (hover base)⟩
    · exact .inr ⟨[], t, ts, r, x, rfl, hlands, fun _ => rfl⟩

theorem Steady.ok {q r : Reader} {base : List Pending} (h : Steady q t)
    (hfeed : (q.onto base).feed t = .ok r) : ∃ q', q.feed t = .ok q' ∧ r = onto q' base := by
  rw [h] at hfeed
  cases hq : q.feed t with
  | error f =>
    rw [hq] at hfeed
    cases hfeed
  | ok q' =>
    rw [hq] at hfeed
    cases hfeed
    exact ⟨q', rfl, rfl⟩

/-! ## The bottom of a program -/

/-- A token that gets down to the bottom goes on with an expression or ends a statement. -/
theorem feed_program {done : List Stmt} {x : Expect} {r : Reader} (hm : Meets x t.kind)
    (h : feed ⟨[.program done], x⟩ t = .ok r) :
    (∃ e op, x = .more e none ∧ follower? t.kind = some (.operator op) ∧
      r = ⟨[.binary t.location op e, .program done], .operand⟩) ∨
    ∃ s, (x = .ended s ∨ ∃ e, x = .more e none ∧ s = .expr e) ∧
      follower? t.kind = some (.closer .separator) ∧ r = ⟨[.program (done ++ [s])], .item⟩ := by
  obtain ⟨k, l⟩ := t
  cases hm with
  | @operator e _ op hf =>
    have hfeed : feed ⟨[.program done], .more e none⟩ ⟨k, l⟩ = _ := continueWith_operator hf _ e
    rw [hfeed] at h
    cases h
    exact .inl ⟨e, op, rfl, hf, rfl⟩
  | @closer e _ c hf =>
    have hfeed : feed ⟨[.program done], .more e none⟩ ⟨k, l⟩ = _ := continueWith_closer hf _ e
    rw [hfeed] at h
    cases c with
    | separator =>
      cases h
      exact .inr ⟨.expr e, .inr ⟨e, rfl, rfl⟩, hf, rfl⟩
    | _ => cases h
  | @ended s _ c hf =>
    change endItem ⟨k, l⟩ s [.program done] = .ok r at h
    unfold endItem at h
    rw [hf] at h
    cases c with
    | separator =>
      cases h
      exact .inr ⟨s, .inl rfl, hf, rfl⟩
    | _ => cases h
  | _ => cases h

end ModuleScript.Reader
