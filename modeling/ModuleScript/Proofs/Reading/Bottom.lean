import ModuleScript.Proofs.Reading.Bodies

/-!
# The bottom of a program

Tokens that get down to the bottom of a program leave something there that no later token takes away.
So if nothing is left there, they are read over everything as they are at the beginning.
-/

set_option autoImplicit false

namespace ModuleScript

namespace Reader

variable {r : Reader} {t : Token} {ts : List Token}

/-- Whatever gets down to one of these leaves one of them. -/
def Lasts (B : List Pending → Prop) : Prop :=
  ∀ base x t r, B base → Meets x t.kind → feed ⟨base, x⟩ t = .ok r →
    ∃ q base', B base' ∧ r = onto q base'

theorem Lasts.feed {B : List Pending → Prop} (hB : Lasts B) {q : Reader} {base : List Pending}
    (hbase : B base) (h : (q.onto base).feed t = .ok r) :
    ∃ q' base', B base' ∧ r = onto q' base' := by
  rcases feed_onto q t with hsteady | ⟨x, hmeets, hlands, -⟩
  · obtain ⟨q', -, rfl⟩ := hsteady.ok h
    exact ⟨q', base, hbase, rfl⟩
  · rw [hlands] at h
    exact hB base x t r hbase hmeets h

theorem Lasts.feedAll {B : List Pending → Prop} (hB : Lasts B) {q : Reader} {base : List Pending}
    (hbase : B base) (h : (q.onto base).feedAll ts = .ok r) :
    ∃ q' base', B base' ∧ r = onto q' base' := by
  induction ts generalizing q base with
  | nil =>
    cases h
    exact ⟨q, base, hbase, rfl⟩
  | cons t ts ih =>
    obtain ⟨r₁, hr₁, hrest⟩ := exists_of_bind_eq_ok h
    obtain ⟨q', base', hbase', rfl⟩ := hB.feed hbase hr₁
    exact ih hbase' hrest

/-! ## A program in which something has been read -/

/-- The statements of a program, of which this is the first. -/
def Stated (s : Stmt) (base : List Pending) : Prop := ∃ done, base = [.program (s :: done)]

theorem lasts_stated (s : Stmt) : Lasts (Stated s) := by
  rintro _ x t r ⟨done, rfl⟩ hmeets h
  rcases feed_program hmeets h with ⟨e, op, -, -, rfl⟩ | ⟨s', -, -, rfl⟩
  · exact ⟨⟨[.binary _ op e], .operand⟩, _, ⟨done, rfl⟩, rfl⟩
  · exact ⟨⟨[], .item⟩, _, ⟨done ++ [s'], rfl⟩, rfl⟩

/-- A statement of the program has been read, or an operator of its first one. -/
inductive Spent : List Pending → Prop where
  | operator (l : Location) (op : BinaryOp) (e : Expr) : Spent [.binary l op e, .program []]
  | statement (s : Stmt) (done : List Stmt) : Spent [.program (s :: done)]

theorem spent_of_program {done : List Stmt} {x : Expect} (hm : Meets x t.kind)
    (h : feed ⟨[.program done], x⟩ t = .ok r) : ∃ q base, Spent base ∧ r = onto q base := by
  rcases feed_program hm h with ⟨e, op, -, -, rfl⟩ | ⟨s, -, -, rfl⟩
  · cases done with
    | nil => exact ⟨⟨[], .operand⟩, _, .operator _ op e, rfl⟩
    | cons s done => exact ⟨⟨[.binary _ op e], .operand⟩, _, .statement s done, rfl⟩
  · cases done with
    | nil => exact ⟨⟨[], .item⟩, _, .statement s [], rfl⟩
    | cons s' done => exact ⟨⟨[], .item⟩, _, .statement s' (done ++ [s]), rfl⟩

theorem spent_of_operator {l : Location} {op : BinaryOp} {e : Expr} {x : Expect}
    (hm : Meets x t.kind) (h : feed ⟨[.binary l op e, .program []], x⟩ t = .ok r) :
    ∃ q base, Spent base ∧ r = onto q base := by
  obtain ⟨k, k'⟩ := t
  cases hm with
  | @operator e' _ op' hf =>
    have hfeed := continueWith_operator hf [.binary l op e, .program []] e'
    by_cases hlevel : op'.level ≤ op.level
    · have hsettle : settleOperators op'.level [.binary l op e, .program []] e' =
          ([.program []], .binary l op e e') := if_pos hlevel
      rw [hsettle] at hfeed
      cases hfeed.symm.trans h
      exact ⟨⟨[], .operand⟩, _, .operator k' op' _, rfl⟩
    · have hsettle : settleOperators op'.level [.binary l op e, .program []] e' =
          ([.binary l op e, .program []], e') := if_neg hlevel
      rw [hsettle] at hfeed
      cases hfeed.symm.trans h
      exact ⟨⟨[.binary k' op' e'], .operand⟩, _, .operator l op e, rfl⟩
  | @closer e' _ c hf =>
    -- the operation ends, so this is what comes of the whole expression
    have hfeed : feed ⟨[.program []], .more (.binary l op e e') none⟩ ⟨k, k'⟩ = .ok r := by
      refine (continueWith_closer hf _ _).trans ?_
      exact (continueWith_closer hf [.binary l op e, .program []] e').symm.trans h
    exact spent_of_program (.closer hf) hfeed
  | @ended s _ c hf =>
    change endItem ⟨k, k'⟩ s [.binary l op e, .program []] = .ok r at h
    unfold endItem at h
    rw [hf] at h
    cases c <;> cases h
  | _ => cases h

theorem lasts_spent : Lasts Spent := by
  intro base x t r hbase hmeets h
  cases hbase with
  | operator l op e => exact spent_of_operator hmeets h
  | statement s done => exact spent_of_program hmeets h

theorem ne_program_of_spent {q : Reader} {base : List Pending} (hbase : Spent base) :
    q.pending ++ base ≠ [.program []] := by
  intro h
  cases hbase with
  | operator l op e =>
    have hlength := congrArg List.length h
    simp at hlength
  | statement s done =>
    have hlast := congrArg List.getLast? h
    simp at hlast

/-- What is read of the tokens without a trace in the program is read over everything. -/
theorem feedAll_operand {x : Expect}
    (h : feedAll ⟨[.program []], .operand⟩ ts = .ok ⟨[.program []], x⟩) (base : List Pending) :
    feedAll ⟨base, .operand⟩ ts = .ok ⟨base, x⟩ := by
  rcases feedAll_onto ⟨[], .operand⟩ ts with hover | ⟨us, t, vs, r', y, rfl, hlands, hover⟩
  · have hprogram := (hover [.program []]).symm.trans h
    cases hown : feedAll ⟨[], .operand⟩ ts with
    | error f =>
      rw [hown] at hprogram
      cases hprogram
    | ok r =>
      rw [hown] at hprogram
      obtain ⟨pending, y⟩ := r
      injection hprogram with hprogram
      injection hprogram with hpending hexpect
      cases List.append_eq_singleton_iff.mp hpending with
      | inl hnil =>
        have hbase := hover base
        rw [hown] at hbase
        change pending = [] ∧ _ at hnil
        change y = x at hexpect
        rw [hnil.1, hexpect] at hbase
        exact hbase
      | inr hnil => cases hnil.2
  · rw [feedAll_append] at h
    obtain ⟨r₁, hr₁, hrest⟩ := exists_of_bind_eq_ok h
    obtain ⟨r₂, hr₂, hrest⟩ := exists_of_bind_eq_ok hrest
    cases (hover [.program []]).symm.trans hr₁
    rw [hlands.2.1] at hr₂
    obtain ⟨q, spent, hspent, rfl⟩ := spent_of_program hlands.1 hr₂
    obtain ⟨q', spent', hspent', hend⟩ := lasts_spent.feedAll hspent hrest
    exact absurd (congrArg Reader.pending hend).symm (ne_program_of_spent hspent')

/-! ## Between statements -/

theorem addStatement?_ne_nil {s : Stmt} {pending : List Pending} :
    addStatement? s pending ≠ some [] := by
  cases pending with
  | nil => nofun
  | cons p rest => cases p <;> nofun

theorem closeBody_ne_item {pending : List Pending} : closeBody t pending ≠ .ok ⟨[], .item⟩ := by
  cases pending with
  | nil => nofun
  | cons p rest => cases p <;> nofun

theorem endStatement_ne_item {s : Stmt} {c : Closer} {pending : List Pending} :
    endStatement t c s pending ≠ .ok ⟨[], .item⟩ := by
  unfold endStatement
  intro h
  cases hadd : addStatement? s pending with
  | none =>
    rw [hadd] at h
    cases h
  | some pending' =>
    rw [hadd] at h
    dsimp only at h
    split at h
    · exact closeBody_ne_item h
    · cases h
      exact addStatement?_ne_nil hadd

theorem close_ne_item {c : Closer} {pending : List Pending} {e : Expr} :
    close t c pending e ≠ .ok ⟨[], .item⟩ := by
  intro h
  cases c with
  | separator | rightBrace =>
    obtain ⟨q, -, hend⟩ := exists_of_bind_eq_ok (x := statement pending e) h
    exact endStatement_ne_item hend
  | _ =>
    unfold close at h
    split at h <;> first | cases h | contradiction

theorem startOperand_ne_item {pending : List Pending} :
    startOperand t pending ≠ .ok ⟨[], .item⟩ := by
  obtain ⟨k, l⟩ := t
  cases k with
  | keyword k => cases k <;> nofun
  | mark m => cases m <;> nofun
  | _ => nofun

/-- Only a separator leads back to where nothing has begun. -/
theorem separator_of_feed_item (h : feed r t = .ok ⟨[], .item⟩) :
    r = ⟨[], .item⟩ ∧ (t.kind = .newline ∨ t.kind = .mark .semicolon) := by
  obtain ⟨pending, x⟩ := r
  cases x with
  | item =>
    change startItem t pending = _ at h
    unfold startItem at h
    split at h
    · rename_i hk
      cases h
      exact ⟨rfl, .inl hk⟩
    · rename_i hk
      cases h
      exact ⟨rfl, .inr hk⟩
    · exact absurd h closeBody_ne_item
    · cases h
    · cases h
    · cases h
    · cases h
    · exact absurd h startOperand_ne_item
  | operand => exact absurd h startOperand_ne_item
  | operandOrClose =>
    change startOrClose t pending = _ at h
    unfold startOrClose at h
    split at h <;> first | cases h | exact absurd h startOperand_ne_item
  | more e flaw =>
    change continueWith t pending e flaw = _ at h
    unfold continueWith at h
    split at h
    · cases h
    · cases h
    · cases h
    · cases h
    · obtain ⟨q, -, hclose⟩ := exists_of_bind_eq_ok h
      exact absurd hclose close_ne_item
  | ended s =>
    change endItem t s pending = _ at h
    unfold endItem at h
    split at h <;> first | cases h | exact absurd h endStatement_ne_item
  | within head =>
    change advance t pending head = _ at h
    unfold advance at h
    dsimp only at h
    split at h <;> cases h

/-- Behind the one statement of a program there is nothing but separators. -/
theorem separator_of_feed_program {s x : Stmt} {q : Reader} {base : List Pending}
    (hbase : Stated s base) (h : (q.onto base).feed t = .ok ⟨[.program [x]], .item⟩) :
    q.onto base = ⟨[.program [x]], .item⟩ ∧ (t.kind = .newline ∨ t.kind = .mark .semicolon) := by
  obtain ⟨done, rfl⟩ := hbase
  rcases feed_onto q t with hsteady | ⟨y, hmeets, hlands, -⟩
  · obtain ⟨⟨pending, y⟩, hq, hr⟩ := hsteady.ok h
    injection hr with hpending hitem
    change _ = y at hitem
    cases pending with
    | nil =>
      rw [← hitem] at hq
      obtain ⟨rfl, hkind⟩ := separator_of_feed_item hq
      exact ⟨congrArg (Reader.mk · .item) hpending.symm, hkind⟩
    | cons p pending =>
      have hlength := congrArg List.length hpending
      simp at hlength
  · rw [hlands] at h
    rcases feed_program hmeets h with ⟨e, op, -, -, hr⟩ | ⟨s', -, -, hr⟩
    · cases hr
    · injection hr with hpending
      simp at hpending

theorem separator_of_finish {s x : Stmt} {q : Reader} {base : List Pending} (hbase : Stated s base)
    (hall : (q.onto base).feedAll (ts ++ [t]) = .ok r) (hfinish : r.finish = .ok [x]) :
    t.kind = .newline ∨ t.kind = .mark .semicolon := by
  rw [feedAll_append] at hall
  obtain ⟨r₁, hr₁, hall⟩ := exists_of_bind_eq_ok hall
  obtain ⟨q₁, base₁, hbase₁, rfl⟩ := (lasts_stated s).feedAll hbase hr₁
  obtain ⟨r₂, hr₂, hnil⟩ := exists_of_bind_eq_ok hall
  cases hnil
  obtain ⟨q₂, base₂, hbase₂, rfl⟩ := (lasts_stated s).feed hbase₁ hr₂
  have hend := (finish_iff_separator (t := ⟨.newline, .start []⟩) (.inl rfl)).mp hfinish
  rw [(separator_of_feed_program hbase₂ hend).1] at hr₂
  exact (separator_of_feed_program hbase₁ hr₂).2

end Reader

end ModuleScript
