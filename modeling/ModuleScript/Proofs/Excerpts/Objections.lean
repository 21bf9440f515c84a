import ModuleScript.Proofs.Grammar.Open
import ModuleScript.Proofs.Reading.Moved

/-!
# What readers object to

A reader refuses a token at the place of that token, and a construct at the place of one of its tokens.
For it makes no places of its own: a map of places that leaves those of the tokens alone leaves alone
whatever it holds.
-/

set_option autoImplicit false

namespace ModuleScript

open Grammar

/-- What a report of a reader to which these tokens are given is about. -/
inductive Objection (ts : List Token) : Report → Prop where
  | unexpected {t : Token} : t ∈ ts → Objection ts ((Cause.unexpected t.text).reportAt t.location)
  | construct {t : Token} {r : Report} : t ∈ ts → r.location = some t.location → Semantic r →
      Objection ts r
  | unexpectedEnd : Objection ts Cause.unexpectedEnd.report

namespace Reader

/-- What is wrong with the expression that has just been read. -/
def Expect.flaw? : Expect → Option Report
  | .more _ flaw => flaw
  | _ => none

/-- A report about what a construct is made of, with a place that the map leaves alone. -/
def Fixed (f : Location → Location) (r : Report) : Prop := Semantic r ∧ r.moved f = r

/-- A reader refuses the token, or finds fault with a construct now or once the next token is known. -/
inductive Answers (f : Location → Location) (t : Token) : Except Report Reader → Prop where
  | ok {r : Reader} : (∀ flaw ∈ r.expect.flaw?, Fixed f flaw) → Answers f t (.ok r)
  | unexpected : Answers f t (Reader.unexpected t)
  | flaw {r : Report} : Fixed f r → Answers f t (.error r)

variable {f : Location → Location} {t : Token} {pending : List Pending} {e : Expr} {r : Reader}

theorem answers_clear (h : r.expect.flaw? = none) : Answers f t (.ok r) := by
  refine .ok ?_
  rw [h]
  rintro _ ⟨⟩

theorem Answers.bind {α : Type} {x : Except Report α} {g : α → Except Report Reader}
    (hx : ∀ r, x = .error r → Fixed f r) (hg : ∀ a, x = .ok a → Answers f t (g a)) :
    Answers f t (x.bind g) := by
  cases x with
  | ok a => exact hg a rfl
  | error r => exact .flaw (hx r rfl)

/-! ## Constructs that end -/

theorem fixed_of_blockFlaw {ss : List Stmt} (hs : ss.map (Stmt.moved f) = ss) {r : Report}
    (hr : blockFlaw ss = some r) : Fixed f r := by
  have hmoved := blockFlaw_moved f ss
  rw [hs, hr] at hmoved
  obtain ⟨s, -, rfl⟩ := Option.map_eq_some_iff.mp hr
  exact ⟨.declarationInBlock _, (Option.some.inj hmoved).symm⟩

theorem settle_fixed (atBar : Bool) (hp : pending.map (Pending.moved f) = pending) {r : Report}
    (hr : settle atBar pending e = .error r) : Fixed f r := by
  induction pending generalizing e with
  | nil => cases hr
  | cons p rest ih =>
    obtain ⟨hhead, htail⟩ := List.cons.inj hp
    cases p with
    | unary | binary | binding | otherwise => exact ih htail hr
    | lambda l ps =>
      unfold settle at hr
      split at hr
      · exact ih htail hr
      · cases hr
        have hl : f l = l := (Pending.lambda.inj hhead).1
        exact ⟨.duplicateParameter l, congrArg Cause.duplicateParameter.reportAt hl⟩
    | armBody =>
      unfold settle at hr
      split at hr
      · cases hr
      · exact ih htail hr
    | _ => cases hr

theorem statement_fixed (hp : pending.map (Pending.moved f) = pending) {r : Report}
    (hr : statement pending e = .error r) : Fixed f r := by
  cases pending with
  | nil => cases hr
  | cons p rest =>
    cases p with
    | variation l n =>
      have hl : f l = l := (Pending.variation.inj (List.cons.inj hp).1).1
      have hflaw : Fixed f ((Cause.variationWithoutFunction n).reportAt l) :=
        ⟨.variationWithoutFunction n l, congrArg (Cause.variationWithoutFunction n).reportAt hl⟩
      cases e with
      | lambda => cases hr
      | _ =>
        cases hr
        exact hflaw
    | _ => cases hr

theorem closeBody_answers (hp : pending.map (Pending.moved f) = pending) :
    Answers f t (closeBody t pending) := by
  cases pending with
  | nil => exact .unexpected
  | cons p rest =>
    cases p with
    | block l done =>
      have hdone : done.map (Stmt.moved f) = done := (Pending.block.inj (List.cons.inj hp).1).2
      exact .ok fun flaw hf => fixed_of_blockFlaw hdone hf
    | moduleBody => exact answers_clear rfl
    | _ => exact .unexpected

theorem endStatement_answers (c : Closer) {s : Stmt} (hp : pending.map (Pending.moved f) = pending)
    (hs : s.moved f = s) : Answers f t (endStatement t c s pending) := by
  have hadd := addStatement?_moved f s pending
  rw [hp, hs] at hadd
  unfold endStatement
  cases hq : addStatement? s pending with
  | none => exact .unexpected
  | some q =>
    rw [hq] at hadd
    dsimp only
    split
    · exact closeBody_answers (Option.some.inj hadd).symm
    · exact answers_clear rfl

theorem closeStatement_answers (c : Closer) (hp : pending.map (Pending.moved f) = pending)
    (he : e.moved f = e) :
    Answers f t ((statement pending e).bind fun q => endStatement t c q.2 q.1) := by
  refine .bind (fun r hr => statement_fixed hp hr) fun q hq => ?_
  have hmoved := statement_moved f hq
  rw [hp, he, hq] at hmoved
  obtain ⟨hpending, hs⟩ := Prod.mk.inj (Except.ok.inj hmoved)
  exact endStatement_answers c hpending.symm hs.symm

theorem close_answers (c : Closer) (hp : pending.map (Pending.moved f) = pending)
    (he : e.moved f = e) : Answers f t (close t c pending e) := by
  cases c with
  | separator => exact closeStatement_answers .separator hp he
  | rightBrace => exact closeStatement_answers .rightBrace hp he
  | _ =>
    -- one case for each construct that the token goes on with or ends
    unfold close
    split <;> first
      | contradiction
      | exact answers_clear rfl
      | exact .unexpected

theorem continueWith_answers {flaw : Option Report} (hp : pending.map (Pending.moved f) = pending)
    (he : e.moved f = e) (hflaw : ∀ r ∈ flaw, Fixed f r) :
    Answers f t (continueWith t pending e flaw) := by
  unfold continueWith
  cases follower? t.kind with
  | none => exact .unexpected
  | some follower =>
    cases flaw with
    | some r => exact .flaw (hflaw r rfl)
    | none =>
      cases follower with
      | arguments => exact answers_clear rfl
      | operator op => exact answers_clear rfl
      | closer c =>
        refine Answers.bind (fun r hr => settle_fixed _ hp hr) fun q hq => ?_
        have hmoved := settle_moved f _ hq
        rw [hp, he, hq] at hmoved
        obtain ⟨hpending, he'⟩ := Prod.mk.inj (Except.ok.inj hmoved)
        exact close_answers c hpending.symm he'.symm

/-! ## Tokens -/

theorem startOperand_answers (t : Token) (pending : List Pending) :
    Answers f t (startOperand t pending) := by
  obtain ⟨k, l⟩ := t
  cases k with
  | keyword k =>
    cases k <;> first
      | exact answers_clear rfl
      | exact .unexpected
  | mark m =>
    cases m <;> first
      | exact answers_clear rfl
      | exact .unexpected
  | newline => exact .unexpected
  | _ => exact answers_clear rfl

theorem startOrClose_answers (t : Token) (pending : List Pending) :
    Answers f t (startOrClose t pending) := by
  unfold startOrClose
  split
  · exact answers_clear rfl
  · exact answers_clear rfl
  · exact answers_clear rfl
  · exact startOperand_answers t _

theorem startItem_answers (hp : pending.map (Pending.moved f) = pending) :
    Answers f t (startItem t pending) := by
  unfold startItem
  split
  · exact answers_clear rfl
  · exact answers_clear rfl
  · exact closeBody_answers hp
  · exact answers_clear rfl
  · exact answers_clear rfl
  · exact answers_clear rfl
  · exact answers_clear rfl
  · exact startOperand_answers t pending

theorem endItem_answers {s : Stmt} (hp : pending.map (Pending.moved f) = pending)
    (hs : s.moved f = s) : Answers f t (endItem t s pending) := by
  unfold endItem
  split
  · exact endStatement_answers .separator hp hs
  · exact endStatement_answers .rightBrace hp hs
  · exact .unexpected

theorem advance_answers (t : Token) (pending : List Pending) (h : Head) :
    Answers f t (advance t pending h) := by
  unfold advance
  split <;> first
    | exact answers_clear rfl
    | exact .unexpected

theorem feed_answers (hr : r.moved f = r)
    (hflaw : ∀ flaw ∈ r.expect.flaw?, Fixed f flaw) :
    Answers f t (r.feed t) := by
  obtain ⟨pending, x⟩ := r
  obtain ⟨hp, hx⟩ := Reader.mk.inj hr
  cases x with
  | item => exact startItem_answers hp
  | operand => exact startOperand_answers t pending
  | operandOrClose => exact startOrClose_answers t pending
  | more e flaw => exact continueWith_answers hp (Expect.more.inj hx).1 hflaw
  | ended s => exact endItem_answers hp (Expect.ended.inj hx)
  | within h => exact advance_answers t pending h

/-! ## Whole programs -/

/-- A reader refuses one of the tokens, or finds fault with a construct, or holds nothing that the map
moves. -/
theorem feedAll_answers {ts : List Token} (hts : ∀ t ∈ ts, t.moved f = t) (hr : r.moved f = r)
    (hflaw : ∀ flaw ∈ r.expect.flaw?, Fixed f flaw) :
    (∀ x, r.feedAll ts = .error x → (∃ t ∈ ts, unexpected (α := Reader) t = .error x) ∨ Fixed f x) ∧
      ∀ r', r.feedAll ts = .ok r' → r'.moved f = r' ∧
        ∀ flaw ∈ r'.expect.flaw?, Fixed f flaw := by
  induction ts generalizing r with
  | nil =>
    refine ⟨?_, ?_⟩
    · rintro _ ⟨⟩
    · rintro _ ⟨⟩
      exact ⟨hr, hflaw⟩
  | cons t ts ih =>
    have hfeed := feed_answers (t := t) hr hflaw
    have ht := hts t (.head _)
    change (∀ x, (r.feed t).bind (·.feedAll ts) = .error x → _) ∧
      ∀ r', (r.feed t).bind (·.feedAll ts) = .ok r' → _
    cases hnext : r.feed t with
    | error x =>
      rw [hnext] at hfeed
      refine ⟨?_, ?_⟩
      · rintro _ ⟨⟩
        cases hfeed with
        | unexpected => exact .inl ⟨t, .head _, rfl⟩
        | flaw hx => exact .inr hx
      · rintro _ ⟨⟩
    | ok r₁ =>
      rw [hnext] at hfeed
      have hmoved := feed_moved f hnext
      rw [hr, ht, hnext] at hmoved
      cases hfeed with
      | ok hflaw₁ =>
        obtain ⟨herror, hok⟩ := ih (fun u hu => hts u (.tail _ hu)) (Except.ok.inj hmoved).symm hflaw₁
        refine ⟨fun x hx => ?_, hok⟩
        rcases herror x hx with ⟨u, hu, he⟩ | hx
        · exact .inl ⟨u, .tail _ hu, he⟩
        · exact .inr hx

theorem whole_error {s : Stmt} {x : Report} (h : whole s pending = .error x) :
    x = Cause.unexpectedEnd.report := by
  unfold whole at h
  split at h <;> cases h
  rfl

theorem finish_error (hr : r.moved f = r)
    (hflaw : ∀ flaw ∈ r.expect.flaw?, Fixed f flaw) {x : Report}
    (h : r.finish = .error x) : x = Cause.unexpectedEnd.report ∨ Fixed f x := by
  obtain ⟨pending, expect⟩ := r
  have hp := (Reader.mk.inj hr).1
  cases expect with
  | item =>
    unfold finish at h
    dsimp only at h
    split at h <;> cases h
    exact .inl rfl
  | more e flaw =>
    cases flaw with
    | some flaw =>
      cases h
      exact .inr (hflaw x rfl)
    | none =>
      rw [finish_more] at h
      cases hs : settle false pending e with
      | error y =>
        rw [hs] at h
        cases h
        exact .inr (settle_fixed false hp hs)
      | ok q =>
        have hmoved := settle_moved f _ hs
        rw [hp, (Expect.more.inj (Reader.mk.inj hr).2).1, hs] at hmoved
        rw [hs] at h
        change (statement q.1 q.2).bind _ = _ at h
        cases ht : statement q.1 q.2 with
        | error y =>
          rw [ht] at h
          cases h
          exact .inr (statement_fixed (congrArg Prod.fst (Except.ok.inj hmoved)).symm ht)
        | ok u =>
          rw [ht] at h
          exact .inl (whole_error h)
  | ended s => exact .inl (whole_error h)
  | operand | operandOrClose | within =>
    cases h
    exact .inl rfl

end Reader

open Classical in
/-- The map of places that moves those which no token has. -/
noncomputable def Location.movedOff (ts : List Token) (l : Location) : Location :=
  if ∃ t ∈ ts, t.location = l then l else ⟨l.file, l.line, l.column + 1⟩

theorem Location.movedOff_eq_self {ts : List Token} {l : Location} (h : l.movedOff ts = l) :
    ∃ t ∈ ts, t.location = l := by
  unfold movedOff at h
  split at h
  · assumption
  · have hcolumn := congrArg Location.column h
    exact absurd hcolumn (Nat.succ_ne_self _)

theorem Token.moved_movedOff {ts : List Token} {t : Token} (ht : t ∈ ts) :
    t.moved (Location.movedOff ts) = t := by
  unfold Token.moved Location.movedOff
  rw [if_pos ⟨t, ht, rfl⟩]

theorem Reader.objection_of_fixed {ts : List Token} {r : Report}
    (h : Fixed (Location.movedOff ts) r) : Objection ts r := by
  obtain ⟨hr, hmoved⟩ := h
  have hlocation : ∀ l, r.location = some l → ∃ t ∈ ts, t.location = l := by
    intro l hl
    have hfixed := congrArg Report.location hmoved
    rw [Report.moved, hl] at hfixed
    exact Location.movedOff_eq_self (Option.some.inj hfixed)
  obtain ⟨l, hl⟩ : ∃ l, r.location = some l := by cases hr <;> exact ⟨_, rfl⟩
  obtain ⟨t, ht, rfl⟩ := hlocation l hl
  exact .construct ht hl hr

/-- A source is refused for something about one of its tokens, or because it ends too early, or
because its scanning stops. -/
theorem objection_of_readProgram {file source : Text} {r : Report}
    (h : readProgram file source = .error (.report r)) :
    Objection (tokenize file source).1 r ∨ (tokenize file source).2 = some (.report r) := by
  unfold readProgram at h
  generalize tokenize file source = q at h ⊢
  obtain ⟨ts, stop⟩ := q
  dsimp only at h
  obtain ⟨herror, hok⟩ := Reader.feedAll_answers (f := Location.movedOff ts) (r := Reader.start)
    (fun _ ht => Token.moved_movedOff ht) rfl (by rintro _ ⟨⟩)
  cases hfeed : Reader.start.feedAll ts with
  | error x =>
    rw [hfeed] at h
    cases h
    rcases herror r hfeed with ⟨t, ht, he⟩ | hx
    · cases he
      exact .inl (.unexpected ht)
    · exact .inl (Reader.objection_of_fixed hx)
  | ok r₁ =>
    rw [hfeed] at h
    cases stop with
    | some stop =>
      cases h
      exact .inr rfl
    | none =>
      obtain ⟨hr₁, hflaw⟩ := hok r₁ hfeed
      dsimp only at h
      cases hfinish : r₁.finish with
      | ok p =>
        rw [hfinish] at h
        cases h
      | error x =>
        rw [hfinish] at h
        cases h
        rcases Reader.finish_error hr₁ hflaw hfinish with rfl | hx
        · exact .inl .unexpectedEnd
        · exact .inl (Reader.objection_of_fixed hx)

end ModuleScript
