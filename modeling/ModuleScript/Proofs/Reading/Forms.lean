import ModuleScript.Proofs.Grammar.Ends
import ModuleScript.Proofs.Reading.Bottom

/-!
# Forms that are open to the right

A binding, a function, a condition or a match goes on until something around it ends. Once one has
begun, every token is a part of it or ends it, so where it stands last everything behind its word
belongs to it, and it is read as it is alone.
-/

set_option autoImplicit false

namespace ModuleScript

/-- A binding, a function, a condition or a match whose word is at the location. -/
inductive Expr.FormAt (l : Location) : Expr → Prop where
  | binding (n : Ident) (e : Expr) : FormAt l (.binding l n e)
  | lambda (o : Option Ident) (ps : List Ident) (e : Expr) : FormAt l (.lambda l o ps e)
  | cond (a b c : Expr) : FormAt l (.cond l a b c)
  | select (e : Expr) (arms : List Arm) : FormAt l (.select l e arms)

/-- The words of these forms. -/
def Keyword.OpensForm (k : Keyword) : Prop :=
  k = .letWord ∨ k = .fnWord ∨ k = .ifWord ∨ k = .matchWord

namespace Reader

/-- A part of such a form has begun. -/
inductive Pending.FormAt (l : Location) : Pending → Prop where
  | binding (n : Ident) : FormAt l (.binding l n)
  | lambda (ps : List Ident) : FormAt l (.lambda l ps)
  | condition : FormAt l (.condition l)
  | consequence (a : Expr) : FormAt l (.consequence l a)
  | otherwise (a b : Expr) : FormAt l (.otherwise l a b)
  | subject : FormAt l (.subject l)
  | guard (e : Expr) (arms : List Arm) (k : Location) (x : Ident) :
    FormAt l (.guard l e arms k x)
  | armBody (e : Expr) (arms : List Arm) (k : Location) (x : Ident) (g : Option Expr) :
    FormAt l (.armBody l e arms k x g)

/-- The beginning of such a form, or of an arm of it. -/
inductive Head.FormAt (l : Location) : Head → Prop where
  | letWord : FormAt l (.letWord l false)
  | letName (n : Ident) : FormAt l (.letName l false n)
  | fnWord : FormAt l (.fnWord l)
  | fnParen : FormAt l (.fnParen l)
  | fnComma (ps : List Ident) : FormAt l (.fnComma l ps)
  | fnParam (ps : List Ident) : FormAt l (.fnParam l ps)
  | fnParams (ps : List Ident) : FormAt l (.fnParams l ps)
  | bar (e : Expr) (arms : List Arm) (k : Location) : FormAt l (.bar l e arms k)
  | binder (e : Expr) (arms : List Arm) (k : Location) (x : Ident) :
    FormAt l (.binder l e arms k x)

/-- The form that has begun first has not ended. -/
inductive Inside (l : Location) : Reader → Prop where
  | part {q : Reader} {p : Pending} : p.FormAt l → Inside l (onto q [p])
  | head {h : Head} : h.FormAt l → Inside l ⟨[], .within h⟩

variable {l : Location} {r r' : Reader} {p : Pending} {t : Token} {ts : List Token} {x : Expect}
  {e : Expr}

/-- The token belongs to the form, whatever is below. -/
def Belongs (l : Location) (r : Reader) (t : Token) : Prop :=
  Steady r t ∧ ∀ r', r.feed t = .ok r' → Inside l r'

/-- The token ends the form, which is an expression then. -/
def EndsForm (l : Location) (r : Reader) (t : Token) : Prop :=
  ∃ e c, e.FormAt l ∧ follower? t.kind = some (.closer c) ∧
    ∀ base, (r.onto base).feed t = feed ⟨base, .more e none⟩ t

theorem belongs_of_error {f : Report} (h : ∀ base, (r.onto base).feed t = .error f) :
    Belongs l r t := by
  have hown : r.feed t = .error f := by
    have hnil := h []
    unfold onto at hnil
    rwa [List.append_nil] at hnil
  refine ⟨fun base => ?_, fun r' hr' => ?_⟩
  · rw [h, hown]
    rfl
  · rw [hown] at hr'
    cases hr'

theorem belongs_of_unexpected (h : ∀ base, (r.onto base).feed t = unexpected t) : Belongs l r t :=
  belongs_of_error h

theorem belongs_of_ok (r' : Reader) (h : ∀ base, (r.onto base).feed t = .ok (r'.onto base))
    (hr' : Inside l r') : Belongs l r t := by
  have hown : r.feed t = .ok r' := by
    have hnil := h []
    unfold onto at hnil
    rwa [List.append_nil, List.append_nil] at hnil
  refine ⟨fun base => ?_, fun r'' hr'' => ?_⟩
  · rw [h, hown]
    rfl
  · rw [hown] at hr''
    cases hr''
    exact hr'

/-- No statement ends directly inside the form. -/
theorem endStatement_form (hp : p.FormAt l) (c : Closer) (s : Stmt) (base : List Pending) :
    endStatement t c s (p :: base) = unexpected t := by
  cases hp <;> rfl

/-- An operator goes on with the expression in the form. -/
theorem operator_form (hp : p.FormAt l) {op : BinaryOp}
    (hf : follower? t.kind = some (.operator op)) : Belongs l ⟨[p], .more e none⟩ t := by
  refine belongs_of_ok (onto ⟨[.binary t.location op e], .operand⟩ [p]) (fun base => ?_)
    (.part hp)
  have hfeed := continueWith_operator hf (p :: base) e
  have hsettle : settleOperators op.level (p :: base) e = (p :: base, e) := by
    cases hp <;> rfl
  rw [hsettle] at hfeed
  exact hfeed

theorem closer_form (hp : p.FormAt l) {c : Closer} (hf : follower? t.kind = some (.closer c)) :
    Belongs l ⟨[p], .more e none⟩ t ∨ EndsForm l ⟨[p], .more e none⟩ t := by
  have hfeed : ∀ pending e, feed ⟨pending, .more e none⟩ t = _ := continueWith_closer hf
  have hends : ∀ e', e'.FormAt l →
      (∀ base, settle (c == .bar) (p :: base) e = settle (c == .bar) base e') →
        EndsForm l ⟨[p], .more e none⟩ t := by
    intro e' he' hsettle
    refine ⟨e', c, he', hf, fun base => ?_⟩
    change feed ⟨p :: base, .more e none⟩ t = _
    rw [hfeed, hfeed, hsettle]
  have hwaits : (∀ base, settle (c == .bar) (p :: base) e = .ok (p :: base, e)) →
      ((∀ base, close t c (p :: base) e = unexpected t) ∨
        ∃ r', Inside l r' ∧ ∀ base, close t c (p :: base) e = .ok (r'.onto base)) →
      Belongs l ⟨[p], .more e none⟩ t := by
    intro hsettle hclose
    have hboth : ∀ base, (onto ⟨[p], .more e none⟩ base).feed t = close t c (p :: base) e := by
      intro base
      change feed ⟨p :: base, .more e none⟩ t = _
      rw [hfeed, hsettle]
      rfl
    rcases hclose with hclose | ⟨r', hr', hclose⟩
    · exact belongs_of_unexpected fun base => (hboth base).trans (hclose base)
    · exact belongs_of_ok r' (fun base => (hboth base).trans (hclose base)) hr'
  cases hp with
  | binding n => exact .inr (hends _ (.binding n _) fun _ => rfl)
  | lambda ps =>
    by_cases hps : ps.Nodup
    · exact .inr (hends _ (.lambda none ps e) fun _ => if_pos hps)
    · refine .inl (belongs_of_error (f := Cause.duplicateParameter.reportAt l) fun base => ?_)
      change feed ⟨.lambda l ps :: base, .more e none⟩ t = _
      rw [hfeed, settle, if_neg hps]
      rfl
  | otherwise a b => exact .inr (hends _ (.cond a b e) fun _ => rfl)
  | armBody e' arms k y g =>
    by_cases hc : c = .bar
    · subst hc
      exact .inl (hwaits (fun _ => rfl) (.inr ⟨_, .head (.bar e' _ t.location), fun _ => rfl⟩))
    · refine .inr (hends _ (.select e' (arms ++ [.mk k y g e])) fun base => ?_)
      have hbar : (c == .bar) = false := by simpa using hc
      rw [hbar]
      rfl
  | condition =>
    refine .inl (hwaits (fun _ => rfl) ?_)
    cases c with
    | thenWord => exact .inr ⟨onto ⟨[], .operand⟩ _, .part (.consequence e), fun _ => rfl⟩
    | _ => exact .inl fun _ => rfl
  | consequence a =>
    refine .inl (hwaits (fun _ => rfl) ?_)
    cases c with
    | elseWord => exact .inr ⟨onto ⟨[], .operand⟩ _, .part (.otherwise a e), fun _ => rfl⟩
    | _ => exact .inl fun _ => rfl
  | subject =>
    refine .inl (hwaits (fun _ => rfl) ?_)
    cases c with
    | bar => exact .inr ⟨_, .head (.bar e [] t.location), fun _ => rfl⟩
    | _ => exact .inl fun _ => rfl
  | guard e' arms k y =>
    refine .inl (hwaits (fun _ => rfl) ?_)
    cases c with
    | thenWord =>
      exact .inr ⟨onto ⟨[], .operand⟩ _, .part (.armBody e' arms k y (some e)), fun _ => rfl⟩
    | _ => exact .inl fun _ => rfl

/-- What gets down to a part of the form belongs to it or ends it. -/
theorem feed_part (hp : p.FormAt l) (hm : Meets x t.kind) :
    Belongs l ⟨[p], x⟩ t ∨ EndsForm l ⟨[p], x⟩ t := by
  obtain ⟨k, k'⟩ := t
  cases hm with
  | operator hf => exact .inl (operator_form hp hf)
  | closer hf => exact closer_form hp hf
  | @ended s _ c hf =>
    refine .inl (belongs_of_unexpected fun base => ?_)
    change endItem ⟨k, k'⟩ s (p :: base) = _
    unfold endItem
    rw [hf]
    cases c with
    | separator | rightBrace => exact endStatement_form hp _ s base
    | _ => rfl
  | _ => exact .inl (belongs_of_unexpected fun base => by cases hp <;> rfl)

/-- From each place in the beginning of the form the next one is in it too. -/
theorem advance_form {h : Head} (hh : h.FormAt l) (hr : advance t [] h = .ok r) : Inside l r := by
  obtain ⟨k, _⟩ := t
  rcases advance_cases hr with ⟨longer, hl, rfl⟩ | ⟨p, he, rfl⟩ | ⟨_, _, _, rfl, -, -⟩ |
    ⟨_, _, _, rfl, -, -⟩
  · cases hl <;> cases hh <;> exact .head (by constructor)
  · have hp : p.FormAt l := by cases he <;> cases hh <;> constructor
    exact .part (q := ⟨[], .operand⟩) hp
  · cases hh
  · cases hh

theorem feed_inside (h : Inside l r) : Belongs l r t ∨ EndsForm l r t := by
  cases h with
  | @part q p hp =>
    have hassoc : ∀ base, (q.onto [p]).onto base = q.onto (p :: base) := by
      intro base
      unfold onto
      rw [List.append_assoc]
      rfl
    rcases feed_onto q t with hsteady | ⟨x, hmeets, hlands, -⟩
    · cases hq : q.feed t with
      | error f =>
        refine .inl (belongs_of_error (f := f) fun base => ?_)
        rw [hassoc, hsteady, hq]
        rfl
      | ok q' =>
        refine .inl (belongs_of_ok (q'.onto [p]) (fun base => ?_) (.part hp))
        rw [hassoc, hsteady, hq]
        change Except.ok (q'.onto (p :: base)) = .ok (onto ⟨q'.pending ++ [p], _⟩ base)
        unfold onto
        rw [List.append_assoc]
        rfl
    · have hboth : ∀ base, ((q.onto [p]).onto base).feed t = (onto ⟨[p], x⟩ base).feed t := by
        intro base
        rw [hassoc]
        exact hlands (p :: base)
      have hown : (q.onto [p]).feed t = feed ⟨[p], x⟩ t := hlands [p]
      rcases feed_part hp hmeets with ⟨hsteady, hinside⟩ | ⟨e, c, he, hf, hends⟩
      · refine .inl ⟨fun base => ?_, fun r' hr' => hinside r' (hown.symm.trans hr')⟩
        rw [hboth, hown, hsteady]
      · exact .inr ⟨e, c, he, hf, fun base => (hboth base).trans (hends base)⟩
  | @head h hh =>
    exact .inl ⟨fun base => advance_onto [] base h, fun r' hr' => advance_form hh hr'⟩

/-- A program that ends in the form is not ended before its last token. -/
theorem feedAll_inside (h : Inside l r) (hall : (r.onto [.program []]).feedAll ts = .ok r')
    (hfinish : r'.finish = .ok [.expr e])
    (hlast : ∀ t ∈ ts.getLast?, t.kind ≠ .newline ∧ t.kind ≠ .mark .semicolon) :
    ∃ r₁, Inside l r₁ ∧ ∀ base, (r.onto base).feedAll ts = .ok (r₁.onto base) := by
  induction ts generalizing r with
  | nil => exact ⟨r, h, fun _ => rfl⟩
  | cons t ts ih =>
    obtain ⟨r₂, hr₂, hrest⟩ := exists_of_bind_eq_ok hall
    rcases feed_inside (t := t) h with ⟨hsteady, hinside⟩ | ⟨e', c, he', hf, hends⟩
    · obtain ⟨q, hq, rfl⟩ := hsteady.ok hr₂
      have hlast' : ∀ u ∈ ts.getLast?, u.kind ≠ .newline ∧ u.kind ≠ .mark .semicolon := by
        intro u hu
        apply hlast
        cases ts with
        | nil => cases hu
        | cons v ts => exact hu
      obtain ⟨r₁, hr₁, hover⟩ := ih (hinside q hq) hrest hlast'
      refine ⟨r₁, hr₁, fun base => ?_⟩
      change ((r.onto base).feed t).bind _ = _
      rw [hsteady, hq]
      exact hover base
    · -- the form ends here, so what comes behind it are separators
      rw [hends] at hr₂
      exfalso
      rcases feed_program (.closer hf) hr₂ with ⟨_, op, -, hop, -⟩ | ⟨s, -, hseparator, rfl⟩
      · rw [hf] at hop
        cases hop
      · have hkind : ∃ us u, t :: ts = us ++ [u] ∧
            (u.kind = .newline ∨ u.kind = .mark .semicolon) := by
          rcases List.eq_nil_or_concat ts with rfl | ⟨us, u, rfl⟩
          · exact ⟨[], t, rfl, Grammar.closed_of_follower? hseparator⟩
          · rw [List.concat_eq_append] at hrest ⊢
            exact ⟨t :: us, u, rfl, separator_of_finish (q := ⟨[], .item⟩) ⟨[], rfl⟩ hrest hfinish⟩
        obtain ⟨us, u, hts, hkind⟩ := hkind
        have hu := hlast u (by rw [hts]; simp)
        exact hkind.elim hu.1 hu.2

theorem program_of_whole {s : Stmt} {pending : List Pending} {program : Program}
    (h : whole s pending = .ok program) : ∃ done, pending = [.program done] ∧ program = done ++ [s] := by
  unfold whole at h
  cases pending with
  | nil => cases h
  | cons p rest =>
    cases p with
    | program done =>
      cases rest with
      | nil =>
        cases h
        exact ⟨done, rfl, rfl⟩
      | cons q rest => cases h
    | _ => cases h

/-- An expression that ends a program stands in at most one construct besides. -/
theorem length_of_ending {pending : List Pending} {program : Program}
    (h : ((statement pending e).bind fun q => whole q.2 q.1) = .ok program) :
    pending.length ≤ 2 := by
  obtain ⟨⟨pending', s⟩, hs, hwhole⟩ := exists_of_bind_eq_ok h
  obtain ⟨done, rfl, -⟩ := program_of_whole hwhole
  cases pending with
  | nil => exact Nat.zero_le 2
  | cons p rest =>
    rcases statement_cons p e with hs' | ⟨s', hs'⟩ | ⟨f, hs'⟩
    · cases (hs' rest).symm.trans hs
      exact Nat.le_succ 1
    · cases (hs' rest).symm.trans hs
      exact Nat.le_refl 2
    · cases (hs' rest).symm.trans hs

/-- What a part of the form comes to when it ends, if it may. -/
theorem settle_part (hp : p.FormAt l) (e : Expr) :
    (∃ e', e'.FormAt l ∧ ∀ base, settle false (p :: base) e = settle false base e') ∨
      (∀ base, settle false (p :: base) e = .ok (p :: base, e)) ∨
      ∃ f, ∀ base, settle false (p :: base) e = .error f := by
  cases hp with
  | binding n => exact .inl ⟨_, .binding n _, fun _ => rfl⟩
  | lambda ps =>
    by_cases hps : ps.Nodup
    · exact .inl ⟨_, .lambda none ps e, fun _ => if_pos hps⟩
    · exact .inr (.inr ⟨_, fun _ => if_neg hps⟩)
  | otherwise a b => exact .inl ⟨_, .cond a b e, fun _ => rfl⟩
  | armBody e' arms k x g => exact .inl ⟨_, .select e' _, fun _ => rfl⟩
  | _ => exact .inr (.inl fun _ => rfl)

/-- A form with which a program ends is what it comes to. -/
theorem settle_inside (h : Inside l r) (hfinish : (r.onto [.program []]).finish = .ok [.expr e]) :
    e.FormAt l ∧ ∃ e₀, r.expect = .more e₀ none ∧
      ∀ base, settle false (r.pending ++ base) e₀ = settle false base e := by
  cases h with
  | head hh => cases hfinish
  | @part q p hp =>
    obtain ⟨pending, x⟩ := q
    have hpending : ∀ base, pending ++ [p] ++ base = pending ++ p :: base := fun base =>
      List.append_assoc pending [p] base
    have hlength : (pending ++ [p] ++ [Pending.program []]).length = pending.length + 2 := by simp
    cases x with
    | item =>
      have hone := finish_item.mp hfinish
      cases hlength.symm.trans (congrArg List.length hone)
    | ended s =>
      obtain ⟨done, hone, -⟩ := program_of_whole (s := s) hfinish
      cases hlength.symm.trans (congrArg List.length hone)
    | more e₀ flaw =>
      cases flaw with
      | some f => cases hfinish
      | none =>
        have hending : ((settle false (pending ++ [p] ++ [.program []]) e₀).bind fun q =>
            (statement q.1 q.2).bind fun u => whole u.2 u.1) = .ok [.expr e] := hfinish
        rw [hpending] at hending
        rcases settle_onto false pending e₀ with
          ⟨p', above, e', hstays⟩ | ⟨e', -, hdown⟩ | ⟨f, herror⟩
        · rw [hstays] at hending
          have hle := length_of_ending hending
          simp at hle
        · rw [hdown] at hending
          rcases settle_part hp e' with ⟨e₁, he₁, hends⟩ | hwaits | ⟨f, herror⟩
          · rw [hends] at hending
            cases hending
            refine ⟨he₁, e₀, rfl, fun base => ?_⟩
            change settle false (pending ++ [p] ++ base) e₀ = _
            rw [hpending, hdown, hends]
          · rw [hwaits] at hending
            have hexpr : statement [p, .program []] e' = .ok ([p, .program []], .expr e') := by
              cases hp <;> rfl
            change ((statement [p, .program []] e').bind _) = _ at hending
            rw [hexpr] at hending
            obtain ⟨done, hone, -⟩ := program_of_whole (s := .expr e') hending
            cases hone
          · rw [herror] at hending
            cases hending
        · rw [herror] at hending
          cases hending
    | _ => cases hfinish

/-- A form that is read alone is read over everything, and it settles to the same. -/
theorem feedAll_form {k : Keyword} (hk : k.OpensForm)
    (h : readTokens (⟨.keyword k, l⟩ :: ts) = .ok [.expr e])
    (hlast : ∀ t ∈ ts.getLast?, t.kind ≠ .newline ∧ t.kind ≠ .mark .semicolon) :
    e.FormAt l ∧ ∃ opened e₀,
      (∀ base, feedAll ⟨base, .operand⟩ (⟨.keyword k, l⟩ :: ts) =
        .ok ⟨opened ++ base, .more e₀ none⟩) ∧
      ∀ base, settle false (opened ++ base) e₀ = settle false base e := by
  have hfirst : ∃ r, Inside l r ∧
      feed ⟨[.program []], .item⟩ ⟨.keyword k, l⟩ = .ok (r.onto [.program []]) ∧
      ∀ base, feed ⟨base, .operand⟩ ⟨.keyword k, l⟩ = .ok (r.onto base) := by
    rcases hk with rfl | rfl | rfl | rfl
    · exact ⟨_, .head .letWord, rfl, fun _ => rfl⟩
    · exact ⟨_, .head .fnWord, rfl, fun _ => rfl⟩
    · exact ⟨onto ⟨[], .operand⟩ _, .part .condition, rfl, fun _ => rfl⟩
    · exact ⟨onto ⟨[], .operand⟩ _, .part .subject, rfl, fun _ => rfl⟩
  obtain ⟨r, hinside, hstart, hfirst⟩ := hfirst
  obtain ⟨r', hall, hfinish⟩ := exists_of_bind_eq_ok h
  obtain ⟨r₁, hr₁, hrest⟩ := exists_of_bind_eq_ok hall
  cases hstart.symm.trans hr₁
  obtain ⟨⟨opened, x⟩, hinside', hover⟩ := feedAll_inside hinside hrest hfinish hlast
  cases (hover [.program []]).symm.trans hrest
  obtain ⟨he, e₀, hx, hsettle⟩ := settle_inside hinside' hfinish
  cases hx
  refine ⟨he, opened, e₀, fun base => ?_, hsettle⟩
  change (feed ⟨base, .operand⟩ ⟨.keyword k, l⟩).bind _ = _
  rw [hfirst]
  exact hover base

end Reader

end ModuleScript
