import ModuleScript.Proofs.Grammar.Begun

/-!
# After an expression

The token behind an expression ends what is open to its right. What has ended is a tree, and it
stands in the construct around it as the next part of its production.
-/

set_option autoImplicit false

namespace ModuleScript

namespace Grammar

open Reader

variable {p : Pending} {pending rest : List Pending} {l : Location} {e : Expr} {shut : Bool}
  {ts us vs : List Token}

/-! ## Statements and bodies -/

theorem DerivesExpr.statement (h : DerivesExpr shut ts e) : Derives .statement ts (.expr e) := by
  obtain ⟨t, rfl, hvalue, hclear, -⟩ := h
  refine ⟨.expression t, rfl, ?_, hclear⟩
  rw [Tree.value?, hvalue]
  rfl

theorem Derives.statement {s : Stmt} (h : Derives .declaration ts s) : Derives .statement ts s := by
  obtain ⟨t, htokens, hvalue, hclear⟩ := h
  exact ⟨.declaration t, htokens, hvalue, hclear⟩

theorem IsSeparator.derives {t : Token} (h : IsSeparator t) : Derives .separator [t] () := by
  obtain ⟨k, l⟩ := t
  rcases h with h | h
  · cases h
    exact ⟨.newline l, rfl, rfl, rfl⟩
  · cases h
    exact ⟨.semicolon l, rfl, rfl, rfl⟩

theorem Derives.moreItems {ss : List Stmt} {o : Option Stmt} {t : Token}
    (h : Derives .items ts ss) (ht : IsSeparator t) (ho : Derives .item us o) :
    Derives .items (ts ++ [t] ++ us) (ss ++ o.toList) := by
  obtain ⟨a, rfl, hvalue, hclear⟩ := h
  obtain ⟨b, rfl, hvalue', hclear'⟩ := ho
  obtain ⟨c, hc, -, -⟩ := ht.derives
  refine ⟨.moreItems a c b, ?_, ?_, Bool.and_eq_true_iff.mpr ⟨hclear, hclear'⟩⟩
  · rw [← hc]
    rfl
  · rw [Tree.value?, hvalue, hvalue']
    rfl

theorem Derives.oneItem {o : Option Stmt} (h : Derives .item ts o) :
    Derives .items ts o.toList := by
  obtain ⟨t, rfl, hvalue, hclear⟩ := h
  refine ⟨.oneItem t, rfl, ?_, hclear⟩
  rw [Tree.value?, hvalue]
  rfl

theorem derives_blank : Derives .item [] none := ⟨.blank, rfl, rfl, rfl⟩

theorem Derives.filled {s : Stmt} (h : Derives .statement ts s) : Derives .item ts (some s) := by
  obtain ⟨t, rfl, hvalue, hclear⟩ := h
  refine ⟨.filled t, rfl, ?_, hclear⟩
  rw [Tree.value?, hvalue]
  rfl

theorem BegunItems.item {ss : List Stmt} {o : Option Stmt} (h : BegunItems ss ts)
    (ho : Derives .item us o) : Derives .items (ts ++ us) (ss ++ o.toList) := by
  cases h with
  | nil => exact ho.oneItem
  | separator hitems ht => exact hitems.moreItems ht ho

/-- A body whose items are complete. -/
inductive Full : Pending → List Token → Prop where
  | block {l : Location} {done : List Stmt} {ts : List Token} : Derives .items ts done →
    Full (.block l done) (⟨.mark .leftBrace, l⟩ :: ts)
  | moduleBody {l : Location} {isPublic : Bool} {n : Ident} {done : List Stmt}
    {ts us : List Token} : BegunModule l isPublic n ts → Derives .items us done →
      Full (.moduleBody l isPublic n done) (ts ++ us)
  | program {done : List Stmt} {ts : List Token} : Derives .items ts done → Full (.program done) ts

theorem full_of_isBody (hp : p.Begun ts) (hb : IsBody p) : Full p ts := by
  have hblank : ∀ {done : List Stmt} {us : List Token}, BegunItems done us →
      Derives .items us done := by
    intro done us h
    have hitems := h.item derives_blank
    simp only [List.append_nil, Option.toList_none] at hitems
    exact hitems
  cases hp with
  | block h => exact .block (hblank h)
  | moduleBody hm h => exact .moduleBody hm (hblank h)
  | program h => exact .program (hblank h)
  | _ => exact absurd hb id

theorem full_of_addStatement? {s : Stmt} {q : List Pending} (hs : Stacked pending ts)
    (h : addStatement? s pending = some q) (hstmt : Derives .statement us s) :
    ∃ p rest vs ws, q = p :: rest ∧ Stacked rest vs ∧ Full p ws ∧ vs ++ ws = ts ++ us := by
  cases hs with
  | nil => cases h
  | cons hrest hp =>
    cases hp with
    | block hitems =>
      cases h
      exact ⟨_, _, _, _, rfl, hrest, .block (hitems.item hstmt.filled), by simp⟩
    | moduleBody hm hitems =>
      cases h
      exact ⟨_, _, _, _, rfl, hrest, .moduleBody hm (hitems.item hstmt.filled), by simp⟩
    | program hitems =>
      cases h
      exact ⟨_, _, _, _, rfl, hrest, .program (hitems.item hstmt.filled), by simp⟩
    | _ => cases h

theorem Full.separate {t : Token} (h : Full p ts) (ht : IsSeparator t) :
    IsBody p ∧ p.Begun (ts ++ [t]) := by
  cases h with
  | block hitems => exact ⟨trivial, .block (.separator hitems ht)⟩
  | moduleBody hm hitems =>
    refine ⟨trivial, ?_⟩
    rw [List.append_assoc]
    exact .moduleBody hm (.separator hitems ht)
  | program hitems => exact ⟨trivial, .program (.separator hitems ht)⟩

theorem Accounts.cast {r : Reader} (h : Accounts r ts) (he : ts = us) : Accounts r us := he ▸ h

theorem closeBody_accounts {t : Token} {r : Reader} (hs : Stacked rest ts) (hp : Full p us)
    (ht : t.kind = .mark .rightBrace) (h : closeBody t (p :: rest) = .ok r) :
    Accounts r (ts ++ us ++ [t]) := by
  obtain ⟨_, k⟩ := t
  cases ht
  cases hp with
  | @block l done us hitems =>
    cases h
    cases hflaw : blockFlaw done with
    | some flaw => exact .flawed _ _ _ _
    | none =>
      obtain ⟨t, rfl, hvalue, hclear⟩ := hitems
      have hdone : done.any Stmt.isDeclaration = false := by
        unfold blockFlaw at hflaw
        have hfind := List.find?_eq_none.mp (Option.map_eq_none_iff.mp hflaw)
        exact List.any_eq_false.mpr hfind
      have hblock : Derives .applied (⟨.mark .leftBrace, l⟩ :: t.tokens ++
          [⟨.mark .rightBrace, k⟩]) (.block l done) := by
        refine ⟨.uncalled (.block l k t), rfl, ?_, hclear⟩
        rw [Tree.value?, Tree.value?, hvalue]
        change (if done.any Stmt.isDeclaration = true then none else some (Expr.block l done)) = _
        rw [hdone]
        rfl
      exact (Accounts.more hs hblock).cast (by simp)
  | @moduleBody l isPublic n done ts' us' hm hitems =>
    cases h
    obtain ⟨t, rfl, hvalue, hclear⟩ := hitems
    have hmodule : Derives .declaration (ts' ++ t.tokens ++ [⟨.mark .rightBrace, k⟩])
        (.module l isPublic n done) := by
      cases hm with
      | plain l₁ l₂ =>
        refine ⟨.module l l₁ l₂ k n t, rfl, ?_, hclear⟩
        rw [Tree.value?, hvalue]
        rfl
      | isPublic l₁ l₂ l₃ =>
        refine ⟨.publicModule l l₁ l₂ l₃ k n t, rfl, ?_, hclear⟩
        rw [Tree.value?, hvalue]
        rfl
    exact (Accounts.ended hs hmodule).cast (by simp)
  | program _ => cases h

theorem statement_derives {q : List Pending × Stmt} (hs : Stacked pending ts)
    (he : DerivesExpr false us e) (h : statement pending e = .ok q) :
    ∃ ts' us', Stacked q.1 ts' ∧ Derives .statement us' q.2 ∧ ts' ++ us' = ts ++ us := by
  have hplain : ∀ {q}, (.ok (pending, .expr e) : Except Report (List Pending × Stmt)) = .ok q →
      ∃ ts' us', Stacked q.1 ts' ∧ Derives .statement us' q.2 ∧ ts' ++ us' = ts ++ us := by
    rintro _ ⟨⟩
    exact ⟨ts, us, hs, he.statement, rfl⟩
  cases pending with
  | nil => exact hplain h
  | cons p rest =>
    cases p with
    | publicBinding l n =>
      cases h
      obtain ⟨ts, vs, rfl, hrest, hp⟩ := hs.pop
      obtain ⟨t, rfl, hvalue, hclear, -⟩ := he
      cases hp with
      | publicBinding l₁ l₂ l₃ =>
        refine ⟨ts, _, hrest, ⟨.declaration (.publicBinding l l₁ l₂ l₃ n t), rfl, ?_, hclear⟩,
          (List.append_assoc ..).symm⟩
        rw [Tree.value?, Tree.value?, hvalue]
        rfl
    | variation l n =>
      obtain ⟨ts, vs, rfl, hrest, hp⟩ := hs.pop
      obtain ⟨t, rfl, hvalue, hclear, -⟩ := he
      cases e with
      | lambda l' o ps body =>
        cases h
        cases hp with
        | variation l₁ l₂ =>
          refine ⟨ts, _, hrest, ⟨.declaration (.variation l l₁ l₂ n t), rfl, ?_, hclear⟩,
            (List.append_assoc ..).symm⟩
          rw [Tree.value?, Tree.value?, hvalue]
          rfl
      | _ => cases h
    | _ => exact hplain h

/-! ## Tokens after an expression -/

/-- The kinds of token that a closer stands for. -/
def Closed : Closer → Token.Kind → Prop
  | .comma, k => k = .mark .comma
  | .rightParen, k => k = .mark .rightParen
  | .rightBracket, k => k = .mark .rightBracket
  | .dots, k => k = .mark .dots
  | .forWord, k => k = .keyword .forWord
  | .ifWord, k => k = .keyword .ifWord
  | .thenWord, k => k = .keyword .thenWord
  | .elseWord, k => k = .keyword .elseWord
  | .bar, k => k = .mark .bar
  | .separator, k => k = .newline ∨ k = .mark .semicolon
  | .rightBrace, k => k = .mark .rightBrace

theorem closed_of_follower? {k : Token.Kind} {c : Closer} (h : follower? k = some (.closer c)) :
    Closed c k := by
  cases k with
  | mark m =>
    cases m <;> cases h
    all_goals first | rfl | exact .inr rfl
  | keyword w =>
    cases w <;> cases h
    all_goals rfl
  | newline =>
    cases h
    exact .inl rfl
  | _ => cases h

theorem follower?_operator {k : Token.Kind} {op : BinaryOp} (h : follower? k = some (.operator op)) :
    ∃ m, k = .mark m ∧ m.binary? = some op := by
  cases k with
  | mark m =>
    refine ⟨m, rfl, ?_⟩
    cases m <;> cases h <;> rfl
  | keyword w => cases w <;> cases h
  | _ => cases h

theorem follower?_arguments {k : Token.Kind} (h : follower? k = some .arguments) :
    k = .mark .leftParen := by
  cases k with
  | mark m =>
    cases m <;> cases h
    rfl
  | keyword w => cases w <;> cases h
  | _ => cases h

theorem BegunList.add {done : List Expr} (h : BegunList done ts) (he : DerivesExpr shut us e) :
    Derives .argumentList (ts ++ us) (done ++ [e]) := by
  obtain ⟨t, rfl, hvalue, hclear, -⟩ := he
  cases h with
  | nil =>
    refine ⟨.oneArgument t, rfl, ?_, hclear⟩
    rw [Tree.value?, hvalue]
    rfl
  | comma l hlist =>
    obtain ⟨a, rfl, hvalue', hclear'⟩ := hlist
    refine ⟨.moreArguments a l t, ?_, ?_, Bool.and_eq_true_iff.mpr ⟨hclear', hclear⟩⟩
    · simp [Tree.tokens]
    · rw [Tree.value?, hvalue', hvalue]
      rfl

theorem Derives.arguments_ne_nil {es : List Expr} (h : Derives .argumentList ts es) :
    es ≠ [] := by
  obtain ⟨t, -, hvalue, -⟩ := h
  cases t with
  | oneArgument t =>
    obtain ⟨e, -, he⟩ := Option.bind_eq_some_iff.mp hvalue
    cases he
    exact List.cons_ne_nil _ _
  | moreArguments a l t =>
    obtain ⟨es', -, he⟩ := Option.bind_eq_some_iff.mp hvalue
    obtain ⟨e, -, he⟩ := Option.bind_eq_some_iff.mp he
    cases he
    exact List.append_ne_nil_of_right_ne_nil _ (List.cons_ne_nil _ _)

theorem BegunList.tokens_nil (h : BegunList [] ts) : ts = [] := by
  cases h with
  | nil => rfl
  | comma l hlist => exact absurd rfl hlist.arguments_ne_nil

theorem Derives.someArguments {es : List Expr} (h : Derives .argumentList ts es) :
    Derives .arguments ts es := by
  obtain ⟨t, htokens, hvalue, hclear⟩ := h
  exact ⟨.someArguments t, htokens, hvalue, hclear⟩

theorem Derives.call {f : Expr} {es : List Expr} (l₁ l₂ : Location) (hf : Derives .applied ts f)
    (h : Derives .arguments us es) : Derives .applied
      (ts ++ ⟨.mark .leftParen, l₁⟩ :: us ++ [⟨.mark .rightParen, l₂⟩]) (f.applied es) := by
  obtain ⟨a, rfl, hvalue, hclear⟩ := hf
  obtain ⟨b, rfl, hvalue', hclear'⟩ := h
  refine ⟨.call a l₁ l₂ b, rfl, ?_, Bool.and_eq_true_iff.mpr ⟨hclear, hclear'⟩⟩
  rw [Tree.value?, hvalue, hvalue']
  rfl

theorem Derives.uncalled (h : Derives .primary ts e) : Derives .applied ts e := by
  obtain ⟨t, htokens, hvalue, hclear⟩ := h
  exact ⟨.uncalled t, htokens, hvalue, hclear⟩

theorem Derives.list {es : List Expr} (l l₁ : Location) (h : Derives .arguments ts es) :
    Derives .primary (⟨.mark .leftBracket, l⟩ :: ts ++ [⟨.mark .rightBracket, l₁⟩])
      (.list l es) := by
  obtain ⟨t, rfl, hvalue, hclear⟩ := h
  refine ⟨.list l l₁ t, rfl, ?_, hclear⟩
  rw [Tree.value?, hvalue]
  rfl

theorem DerivesExpr.group (l l₁ : Location) (h : DerivesExpr shut ts e) :
    Derives .primary (⟨.mark .leftParen, l⟩ :: ts ++ [⟨.mark .rightParen, l₁⟩]) e := by
  obtain ⟨t, rfl, hvalue, hclear, -⟩ := h
  exact ⟨.group l l₁ t, rfl, hvalue, hclear⟩

theorem derives_range {a : Expr} (l₁ : Location) (hp : (Pending.rangeStop l a).Begun ts)
    (h : DerivesExpr shut us e) :
    Derives .primary (ts ++ us ++ [⟨.mark .rightBracket, l₁⟩]) (.range l a e) := by
  cases hp with
  | rangeStop l₂ ha =>
    obtain ⟨t, rfl, hvalue, hclear, -⟩ := h
    obtain ⟨t', rfl, hvalue', hclear', -⟩ := ha
    refine ⟨.range l l₂ l₁ t' t, ?_, ?_, Bool.and_eq_true_iff.mpr ⟨hclear', hclear⟩⟩
    · simp [Tree.tokens]
    · rw [Tree.value?, hvalue', hvalue]
      rfl

theorem derives_comprehension {a : Expr} {x : Ident} (l₁ : Location)
    (hp : (Pending.iterable l a x).Begun ts) (h : DerivesExpr shut us e) :
    Derives .primary (ts ++ us ++ [⟨.mark .rightBracket, l₁⟩])
      (.comprehension l a x e none) := by
  cases hp with
  | iterable l₂ l₃ l₄ ha =>
    obtain ⟨t, rfl, hvalue, hclear, -⟩ := h
    obtain ⟨t', rfl, hvalue', hclear', -⟩ := ha
    refine ⟨.comprehension l l₂ l₃ l₄ l₁ t' x t, rfl, ?_,
      Bool.and_eq_true_iff.mpr ⟨hclear', hclear⟩⟩
    rw [Tree.value?, hvalue', hvalue]
    rfl

theorem derives_filtered {a b : Expr} {x : Ident} (l₁ : Location)
    (hp : (Pending.filter l a x b).Begun ts) (h : DerivesExpr shut us e) :
    Derives .primary (ts ++ us ++ [⟨.mark .rightBracket, l₁⟩])
      (.comprehension l a x b (some e)) := by
  cases hp with
  | filter l₂ l₃ l₄ l₅ ha hb =>
    obtain ⟨t, rfl, hvalue, hclear, -⟩ := h
    obtain ⟨t', rfl, hvalue', hclear', -⟩ := ha
    obtain ⟨t'', rfl, hvalue'', hclear'', -⟩ := hb
    have hparts : (t''.clear true && t.clear true) = true :=
      Bool.and_eq_true_iff.mpr ⟨hclear'', hclear⟩
    refine ⟨.filtered l l₂ l₃ l₄ l₅ l₁ t' x t'' t, ?_, ?_,
      Bool.and_eq_true_iff.mpr ⟨hclear', hparts⟩⟩
    · simp [Tree.tokens]
    · rw [Tree.value?, hvalue', hvalue'', hvalue]
      rfl

theorem endStatement_accounts {t : Token} {c : Closer} {s : Stmt} {r : Reader}
    (hs : Stacked pending ts) (hstmt : Derives .statement us s)
    (hc : c = .separator ∨ c = .rightBrace) (ht : Closed c t.kind)
    (h : endStatement t c s pending = .ok r) : Accounts r (ts ++ us ++ [t]) := by
  unfold endStatement at h
  split at h
  · cases h
  · rename_i q hadd
    obtain ⟨p, rest, vs, ws, rfl, hrest, hfull, heq⟩ := full_of_addStatement? hs hadd hstmt
    rcases hc with rfl | rfl
    · cases h
      obtain ⟨hbody, hp⟩ := hfull.separate ht
      refine (Accounts.item hbody (hrest.cons hp)).cast ?_
      rw [← List.append_assoc, heq]
    · have hclose := closeBody_accounts hrest hfull ht h
      rwa [heq] at hclose

section Close

variable {k : Location} {r : Reader}

theorem closeStatement_accounts {t : Token} {c : Closer} (hs : Stacked pending ts)
    (he : DerivesExpr false us e) (hc : c = .separator ∨ c = .rightBrace) (ht : Closed c t.kind)
    (h : ((statement pending e).bind fun q => endStatement t c q.2 q.1) = .ok r) :
    Accounts r (ts ++ us ++ [t]) := by
  obtain ⟨q, hq, hend⟩ := exists_of_bind_eq_ok h
  obtain ⟨ts', us', hs', hstmt, heq⟩ := statement_derives hs he hq
  rw [← heq]
  exact endStatement_accounts hs' hstmt hc ht hend

theorem comma_accounts (hs : Stacked rest ts) (hp : p.Begun vs) (he : DerivesExpr shut us e)
    (h : close ⟨.mark .comma, k⟩ .comma (p :: rest) e = .ok r) :
    Accounts r (ts ++ vs ++ us ++ [⟨.mark .comma, k⟩]) := by
  cases hp with
  | arguments l₁ hf hlist =>
    cases h
    have hcomma := Pending.Begun.arguments l₁ hf (.comma k (hlist.add he))
    exact (Accounts.operand (hs.cons hcomma)).cast (by simp)
  | @list l done _ hlist =>
    cases h
    have hcomma := Pending.Begun.list (l := l) (.comma k (hlist.add he))
    exact (Accounts.operand (hs.cons hcomma)).cast (by simp)
  | _ => cases h

theorem rightParen_accounts (hs : Stacked rest ts) (hp : p.Begun vs) (he : DerivesExpr shut us e)
    (h : close ⟨.mark .rightParen, k⟩ .rightParen (p :: rest) e = .ok r) :
    Accounts r (ts ++ vs ++ us ++ [⟨.mark .rightParen, k⟩]) := by
  cases hp with
  | group l =>
    cases h
    exact (Accounts.more hs (he.group l k).uncalled).cast (by simp)
  | arguments l₁ hf hlist =>
    cases h
    have hcall := hf.call l₁ k (hlist.add he).someArguments
    exact (Accounts.more hs hcall).cast (by simp)
  | _ => cases h

theorem rightBracket_accounts (hs : Stacked rest ts) (hp : p.Begun vs)
    (he : DerivesExpr shut us e)
    (h : close ⟨.mark .rightBracket, k⟩ .rightBracket (p :: rest) e = .ok r) :
    Accounts r (ts ++ vs ++ us ++ [⟨.mark .rightBracket, k⟩]) := by
  have hp' := hp
  cases hp with
  | @list l done _ hlist =>
    cases h
    have helements := Derives.list l k (hlist.add he).someArguments
    exact (Accounts.more hs helements.uncalled).cast (by simp)
  | rangeStop _ _ =>
    cases h
    exact (Accounts.more hs (derives_range k hp' he).uncalled).cast (by simp)
  | iterable _ _ _ _ =>
    cases h
    exact (Accounts.more hs (derives_comprehension k hp' he).uncalled).cast (by simp)
  | filter _ _ _ _ _ _ =>
    cases h
    exact (Accounts.more hs (derives_filtered k hp' he).uncalled).cast (by simp)
  | _ => cases h

theorem dots_accounts (hs : Stacked rest ts) (hp : p.Begun vs) (he : DerivesExpr false us e)
    (h : close ⟨.mark .dots, k⟩ .dots (p :: rest) e = .ok r) :
    Accounts r (ts ++ vs ++ us ++ [⟨.mark .dots, k⟩]) := by
  cases hp with
  | @list l done _ hlist =>
    cases done with
    | cons a as => cases h
    | nil =>
      cases h
      obtain rfl := hlist.tokens_nil
      exact (Accounts.operand (hs.cons (.rangeStop k he))).cast (by simp)
  | _ => cases h

theorem forWord_accounts (hs : Stacked rest ts) (hp : p.Begun vs) (he : DerivesExpr false us e)
    (h : close ⟨.keyword .forWord, k⟩ .forWord (p :: rest) e = .ok r) :
    Accounts r (ts ++ vs ++ us ++ [⟨.keyword .forWord, k⟩]) := by
  cases hp with
  | @list l done _ hlist =>
    cases done with
    | cons a as => cases h
    | nil =>
      cases h
      obtain rfl := hlist.tokens_nil
      exact (Accounts.within hs (.forWord k he)).cast (by simp)
  | _ => cases h

theorem ifWord_accounts (hs : Stacked rest ts) (hp : p.Begun vs) (he : DerivesExpr false us e)
    (h : close ⟨.keyword .ifWord, k⟩ .ifWord (p :: rest) e = .ok r) :
    Accounts r (ts ++ vs ++ us ++ [⟨.keyword .ifWord, k⟩]) := by
  cases hp with
  | iterable l₁ l₂ l₃ ha =>
    cases h
    exact (Accounts.operand (hs.cons (.filter l₁ l₂ l₃ k ha he))).cast (by simp)
  | _ => cases h

theorem thenWord_accounts (hs : Stacked rest ts) (hp : p.Begun vs) (he : DerivesExpr false us e)
    (h : close ⟨.keyword .thenWord, k⟩ .thenWord (p :: rest) e = .ok r) :
    Accounts r (ts ++ vs ++ us ++ [⟨.keyword .thenWord, k⟩]) := by
  cases hp with
  | condition l =>
    cases h
    exact (Accounts.operand (hs.cons (.consequence k he))).cast (by simp)
  | guard l₁ l₂ hselect =>
    cases h
    exact (Accounts.operand (hs.cons (.guardedBody l₁ l₂ k hselect he))).cast (by simp)
  | _ => cases h

theorem elseWord_accounts (hs : Stacked rest ts) (hp : p.Begun vs) (he : DerivesExpr false us e)
    (h : close ⟨.keyword .elseWord, k⟩ .elseWord (p :: rest) e = .ok r) :
    Accounts r (ts ++ vs ++ us ++ [⟨.keyword .elseWord, k⟩]) := by
  cases hp with
  | consequence l₁ ha =>
    cases h
    exact (Accounts.operand (hs.cons (.otherwise l₁ k ha he))).cast (by simp)
  | _ => cases h

theorem bar_accounts (hs : Stacked rest ts) (hp : p.Begun vs) (he : DerivesExpr true us e)
    (h : close ⟨.mark .bar, k⟩ .bar (p :: rest) e = .ok r) :
    Accounts r (ts ++ vs ++ us ++ [⟨.mark .bar, k⟩]) := by
  have hp' := hp
  cases hp with
  | subject l =>
    cases h
    exact (Accounts.within hs (.bar (.subject he))).cast (by simp)
  | armBody _ _ _ =>
    cases h
    have hselect := begunSelect_of_armBody hp' he.open
    exact (Accounts.within hs (.bar hselect)).cast (by simp)
  | guardedBody _ _ _ _ _ =>
    cases h
    have hselect := begunSelect_of_armBody hp' he.open
    exact (Accounts.within hs (.bar hselect)).cast (by simp)
  | _ => cases h

theorem close_accounts {t : Token} {c : Closer} (hs : Stacked pending ts)
    (he : DerivesExpr (c == .bar) us e) (ht : Closed c t.kind)
    (h : close t c pending e = .ok r) : Accounts r (ts ++ us ++ [t]) := by
  have hs' := hs
  obtain ⟨_, k⟩ := t
  cases hs with
  | nil =>
    cases c with
    | separator => exact closeStatement_accounts hs' he (.inl rfl) ht h
    | rightBrace => exact closeStatement_accounts hs' he (.inr rfl) ht h
    | _ => cases h
  | cons hrest hp =>
    cases c with
    | separator => exact closeStatement_accounts hs' he (.inl rfl) ht h
    | rightBrace => exact closeStatement_accounts hs' he (.inr rfl) ht h
    | comma =>
      obtain rfl := ht
      exact comma_accounts hrest hp he h
    | rightParen =>
      obtain rfl := ht
      exact rightParen_accounts hrest hp he h
    | rightBracket =>
      obtain rfl := ht
      exact rightBracket_accounts hrest hp he h
    | dots =>
      obtain rfl := ht
      exact dots_accounts hrest hp he h
    | forWord =>
      obtain rfl := ht
      exact forWord_accounts hrest hp he h
    | ifWord =>
      obtain rfl := ht
      exact ifWord_accounts hrest hp he h
    | thenWord =>
      obtain rfl := ht
      exact thenWord_accounts hrest hp he h
    | elseWord =>
      obtain rfl := ht
      exact elseWord_accounts hrest hp he h
    | bar =>
      obtain rfl := ht
      exact bar_accounts hrest hp he h

end Close

theorem continueWith_accounts {t : Token} {r : Reader} (hs : Stacked pending ts)
    (he : Derives .applied us e) (h : continueWith t pending e none = .ok r) :
    Accounts r (ts ++ us ++ [t]) := by
  unfold continueWith at h
  cases hf : follower? t.kind with
  | none =>
    rw [hf] at h
    cases h
  | some f =>
    rw [hf] at h
    cases f with
    | arguments =>
      cases h
      obtain ⟨_, k⟩ := t
      obtain rfl := follower?_arguments hf
      have hfresh : IsFresh (.arguments e []) := trivial
      refine (Accounts.operandOrClose hfresh (hs.cons (.arguments k he .nil))).cast ?_
      simp
    | operator op =>
      cases h
      obtain ⟨_, k⟩ := t
      obtain ⟨m, rfl, hop⟩ := follower?_operator hf
      obtain ⟨ts', us', hs', he', heq⟩ := settleOperators_derives op.level hs he.operand
      refine (Accounts.operand (hs'.cons (.binary hop he'))).cast ?_
      rw [← List.append_assoc, heq]
    | closer c =>
      obtain ⟨q, hq, hclose⟩ := exists_of_bind_eq_ok h
      have he' : DerivesExpr (c == .bar) us e := he.operand.mono fun _ => rfl
      obtain ⟨ts', us', hs', he'', heq⟩ := settle_derives hs he' hq
      rw [← heq]
      exact close_accounts hs' he'' (closed_of_follower? hf) hclose

end Grammar

end ModuleScript
