import ModuleScript.Proofs.Grammar.Ends

/-!
# What is read is derived

Each token leaves a reader that accounts for one token more. So the tokens of a program that is read
are the leaves of a derivation tree that stands for the program.
-/

set_option autoImplicit false

namespace ModuleScript

namespace Grammar

open Reader

variable {p : Pending} {pending rest : List Pending} {l : Location} {e : Expr} {shut : Bool}
  {ts us vs : List Token}

/-! ## Beginnings -/

theorem derives_bool (l : Location) (b : Bool) : Derives .primary
    [⟨.keyword (if b then .trueWord else .falseWord), l⟩] (.constant l (.bool b)) :=
  ⟨.bool l b, rfl, rfl, rfl⟩

theorem startOperand_accounts {t : Token} {r : Reader} (hs : Stacked pending ts)
    (h : startOperand t pending = .ok r) : Accounts r (ts ++ [t]) := by
  have hleaf : ∀ {e}, Derives .primary [t] e → Accounts ⟨pending, .more e none⟩ (ts ++ [t]) :=
    fun he => .more hs he.uncalled
  obtain ⟨k, l⟩ := t
  cases k with
  | identifier n =>
    cases h
    exact hleaf ⟨.name l n, rfl, rfl, rfl⟩
  | dotted ns =>
    cases h
    exact hleaf ⟨.dotted l ns, rfl, rfl, rfl⟩
  | number n =>
    cases h
    exact hleaf ⟨.number l n, rfl, rfl, rfl⟩
  | float x =>
    cases h
    exact hleaf ⟨.float l x, rfl, rfl, rfl⟩
  | string s =>
    cases h
    exact hleaf ⟨.string l s, rfl, rfl, rfl⟩
  | char c =>
    cases h
    exact hleaf ⟨.char l c, rfl, rfl, rfl⟩
  | keyword w =>
    cases w with
    | trueWord =>
      cases h
      exact hleaf (derives_bool l true)
    | falseWord =>
      cases h
      exact hleaf (derives_bool l false)
    | letWord =>
      cases h
      exact .within hs (.letWord l)
    | fnWord =>
      cases h
      exact .within hs (.fnWord l)
    | ifWord =>
      cases h
      exact .operand (hs.cons (.condition l))
    | matchWord =>
      cases h
      exact .operand (hs.cons (.subject l))
    | _ => cases h
  | mark m =>
    have hunary : ∀ {op}, m.unary? = some op →
        Accounts ⟨.unary l op :: pending, .operand⟩ (ts ++ [⟨.mark m, l⟩]) :=
      fun hop => .operand (hs.cons (.unary hop))
    cases m with
    | leftParen =>
      cases h
      exact .operandOrClose trivial (hs.cons (.group l))
    | leftBracket =>
      cases h
      exact .operandOrClose trivial (hs.cons (.list .nil))
    | leftBrace =>
      cases h
      exact .item trivial (hs.cons (.block .nil))
    | minus =>
      cases h
      exact hunary rfl
    | caret =>
      cases h
      exact hunary rfl
    | dollar =>
      cases h
      exact hunary rfl
    | _ => cases h
  | newline => cases h

theorem derives_noArguments : Derives .arguments [] [] := ⟨.noArguments, rfl, rfl, rfl⟩

theorem startOrClose_accounts {t : Token} {r : Reader} (hp : IsFresh p)
    (hs : Stacked (p :: rest) ts) (h : startOrClose t (p :: rest) = .ok r) :
    Accounts r (ts ++ [t]) := by
  obtain ⟨ts', us, htokens, hrest, hbegun⟩ := hs.pop
  unfold startOrClose at h
  split at h
  · rename_i l _ hk hpending
    cases hpending
    cases h
    obtain ⟨_, k⟩ := t
    cases hk
    cases hbegun with
    | group =>
      have hunit : Derives .primary [⟨.mark .leftParen, l⟩, ⟨.mark .rightParen, k⟩] (.unit l) :=
        ⟨.unit l k, rfl, rfl, rfl⟩
      exact (Accounts.more hrest hunit.uncalled).cast (by simp [htokens])
  · rename_i f done _ hk hpending
    cases hpending
    cases h
    obtain ⟨_, k⟩ := t
    cases hk
    cases hbegun with
    | arguments l₁ hf hlist =>
      cases done with
      | cons e es => exact absurd hp id
      | nil =>
        obtain rfl := hlist.tokens_nil
        refine (Accounts.more hrest (hf.call l₁ k derives_noArguments)).cast ?_
        simp [htokens]
  · rename_i l done _ hk hpending
    cases hpending
    cases h
    obtain ⟨_, k⟩ := t
    cases hk
    cases hbegun with
    | list hlist =>
      cases done with
      | cons e es => exact absurd hp id
      | nil =>
        obtain rfl := hlist.tokens_nil
        refine (Accounts.more hrest (Derives.list l k derives_noArguments).uncalled).cast ?_
        simp [htokens]
  · exact startOperand_accounts hs h

theorem startItem_accounts {t : Token} {r : Reader} (hp : IsBody p) (hs : Stacked (p :: rest) ts)
    (h : startItem t (p :: rest) = .ok r) : Accounts r (ts ++ [t]) := by
  have hseparator : IsSeparator t → Accounts ⟨p :: rest, .item⟩ (ts ++ [t]) := by
    intro ht
    obtain ⟨ts, us, rfl, hrest, hbegun⟩ := hs.pop
    obtain ⟨hbody, hbegun⟩ := (full_of_isBody hbegun hp).separate ht
    exact (Accounts.item hbody (hrest.cons hbegun)).cast (by simp)
  unfold startItem at h
  split at h
  · rename_i hk
    cases h
    exact hseparator (.inl hk)
  · rename_i hk
    cases h
    exact hseparator (.inr hk)
  · rename_i hk
    obtain ⟨ts, us, rfl, hrest, hbegun⟩ := hs.pop
    exact closeBody_accounts hrest (full_of_isBody hbegun hp) hk h
  · rename_i hk
    obtain ⟨_, l⟩ := t
    cases hk
    cases h
    exact .within hs (.pubWord l)
  · rename_i hk
    obtain ⟨_, l⟩ := t
    cases hk
    cases h
    exact .within hs (.varWord l)
  · rename_i hk
    obtain ⟨_, l⟩ := t
    cases hk
    cases h
    exact .within hs (.modWord l)
  · rename_i hk
    obtain ⟨_, l⟩ := t
    cases hk
    cases h
    exact .within hs (.impWord l)
  · exact startOperand_accounts hs h

theorem endItem_accounts {t : Token} {s : Stmt} {r : Reader} (hs : Stacked pending ts)
    (hd : Derives .declaration us s) (h : endItem t s pending = .ok r) :
    Accounts r (ts ++ us ++ [t]) := by
  unfold endItem at h
  split at h
  · rename_i hf
    exact endStatement_accounts hs hd.statement (.inl rfl) (closed_of_follower? hf) h
  · rename_i hf
    exact endStatement_accounts hs hd.statement (.inr rfl) (closed_of_follower? hf) h
  · cases h

theorem Derives.moreImports {ns : List Ident} (l₁ l₂ : Location) (n : Ident)
    (h : Derives .importNames ts ns) :
    Derives .importNames (ts ++ [⟨.mark .comma, l₁⟩, ⟨.identifier n, l₂⟩]) (ns ++ [n]) := by
  obtain ⟨t, rfl, hvalue, -⟩ := h
  refine ⟨.moreImports t l₁ l₂ n, rfl, ?_, rfl⟩
  rw [Tree.value?, hvalue]
  rfl

theorem Derives.moreParams {ns : List Ident} (l₁ l₂ : Location) (n : Ident)
    (h : Derives .paramList ts ns) :
    Derives .paramList (ts ++ [⟨.mark .comma, l₁⟩, ⟨.identifier n, l₂⟩]) (ns ++ [n]) := by
  obtain ⟨t, rfl, hvalue, -⟩ := h
  refine ⟨.moreParams t l₁ l₂ n, rfl, ?_, rfl⟩
  rw [Tree.value?, hvalue]
  rfl

theorem Derives.someParams {ns : List Ident} (h : Derives .paramList ts ns) :
    Derives .params ts ns := by
  obtain ⟨t, htokens, hvalue, hclear⟩ := h
  exact ⟨.someParams t, htokens, hvalue, rfl⟩

theorem derives_imports {ns : List Ident} {path : Text} (l₂ : Location)
    (hb : (Head.fromWord l ns).Begun ts) :
    Derives .declaration (ts ++ [⟨.string path, l₂⟩]) (.imports l ns path) := by
  cases hb with
  | fromWord l₁ hns =>
    obtain ⟨t, rfl, hvalue, -⟩ := hns
    refine ⟨.imports l l₁ l₂ t path, ?_, ?_, rfl⟩
    · simp [Tree.tokens]
    · rw [Tree.value?, hvalue]
      rfl

/-! ### Fixed beginnings -/

/-- The tokens of a longer beginning. -/
theorem begun_of_lengthens {head longer : Head} {k : Token.Kind} (h : Lengthens head k longer)
    (hb : head.Begun us) (l : Location) : longer.Begun (us ++ [⟨k, l⟩]) := by
  cases h with
  | publicLet =>
    cases hb
    exact .publicLetWord _ l
  | publicMod =>
    cases hb
    exact .publicModWord _ l
  | letName =>
    cases hb with
    | letWord => exact .letName _ l _
    | publicLetWord _ l₁ => exact .publicLetName _ l₁ l _
  | varName =>
    cases hb
    exact .varName _ l _
  | modName =>
    cases hb with
    | modWord => exact .modName _ l _
    | publicModWord _ l₁ => exact .publicModName _ l₁ l _
  | importName l₀ ns n =>
    cases hb with
    | impWord => exact .impName ⟨.oneImport l n, rfl, rfl, rfl⟩
    | impComma l₁ hns => simpa using Head.Begun.impName (l := l₀) (hns.moreImports l₁ l n)
  | importComma =>
    cases hb with
    | impName hns => exact .impComma l hns
  | fromWord =>
    cases hb with
    | impName hns => exact .fromWord l hns
  | fnParen =>
    cases hb
    exact .fnParen _ l
  | firstParam _ n =>
    cases hb with
    | fnParen _ l₁ => exact .fnParam l₁ ⟨.oneParam l n, rfl, rfl, rfl⟩
  | noParams =>
    cases hb with
    | fnParen _ l₁ => exact .fnParams l₁ l ⟨.noParams, rfl, rfl, rfl⟩
  | nextParam l₀ ps n =>
    cases hb with
    | fnComma l₁ l₂ hps => simpa using Head.Begun.fnParam (l := l₀) l₁ (hps.moreParams l₂ l n)
  | paramComma =>
    cases hb with
    | fnParam l₁ hps => exact .fnComma l₁ l hps
  | params =>
    cases hb with
    | fnParam l₁ hps => exact .fnParams l₁ l hps.someParams
  | binder _ _ _ k x =>
    cases hb with
    | bar hselect => simpa using Head.Begun.binder (k := k) (x := x) l hselect
  | forName l₀ _ x =>
    cases hb with
    | forWord l₁ he => simpa using Head.Begun.forName (l := l₀) (x := x) l₁ l he

/-- The tokens of a construct whose beginning has ended. -/
theorem begun_of_enters {head : Head} {k : Token.Kind} (h : Enters head k p) (hb : head.Begun us)
    (l : Location) : p.Begun (us ++ [⟨k, l⟩]) := by
  cases h with
  | publicBinding =>
    cases hb with
    | publicLetName _ l₁ l₂ => exact .publicBinding l₁ l₂ l
  | binding =>
    cases hb with
    | letName _ l₁ => exact .binding l₁ l
  | variation =>
    cases hb with
    | varName _ l₁ => exact .variation l₁ l
  | lambda l₀ =>
    cases hb with
    | fnParams l₁ l₂ hps => simpa using Pending.Begun.lambda (l := l₀) l₁ l₂ l hps
  | armBody _ _ _ k x =>
    cases hb with
    | binder l₁ hselect => simpa using Pending.Begun.armBody (k := k) (x := x) l₁ l hselect
  | guard _ _ _ k x =>
    cases hb with
    | binder l₁ hselect => simpa using Pending.Begun.guard (k := k) (x := x) l₁ l hselect
  | iterable l₀ _ x =>
    cases hb with
    | forName l₁ l₂ he => simpa using Pending.Begun.iterable (l := l₀) (x := x) l₁ l₂ l he

theorem begun_moduleBody {isPublic : Bool} {n : Ident} (hb : (Head.modName l isPublic n).Begun us)
    (l' : Location) : (Pending.moduleBody l isPublic n []).Begun (us ++ [⟨.mark .leftBrace, l'⟩]) := by
  cases hb with
  | modName _ l₁ =>
    simpa using Pending.Begun.moduleBody (.plain (l := l) (n := n) l₁ l') .nil
  | publicModName _ l₁ l₂ =>
    simpa using Pending.Begun.moduleBody (.isPublic (l := l) (n := n) l₁ l₂ l') .nil

theorem advance_accounts {t : Token} {head : Head} {r : Reader} (hs : Stacked pending ts)
    (hb : head.Begun us) (h : advance t pending head = .ok r) : Accounts r (ts ++ us ++ [t]) := by
  rw [List.append_assoc]
  obtain ⟨k, l⟩ := t
  rcases advance_cases h with ⟨longer, hl, rfl⟩ | ⟨p, he, rfl⟩ | ⟨_, _, _, rfl, rfl, rfl⟩ |
    ⟨_, _, _, rfl, rfl, rfl⟩
  · exact .within hs (begun_of_lengthens hl hb l)
  · exact .operand (hs.cons (begun_of_enters he hb l))
  · exact .item trivial (hs.cons (begun_moduleBody hb l))
  · exact .ended hs (derives_imports l hb)

/-! ## Programs -/

theorem feed_accounts {t : Token} {r r' : Reader} (hr : Accounts r ts) (h : r.feed t = .ok r') :
    Accounts r' (ts ++ [t]) := by
  cases hr with
  | item hp hs => exact startItem_accounts hp hs h
  | operand hs => exact startOperand_accounts hs h
  | operandOrClose hp hs => exact startOrClose_accounts hp hs h
  | more hs he => exact continueWith_accounts hs he h
  | flawed pending e flaw =>
    change continueWith t pending e (some flaw) = .ok r' at h
    unfold continueWith at h
    cases hf : follower? t.kind <;> rw [hf] at h <;> cases h
  | ended hs hd => exact endItem_accounts hs hd h
  | within hs hb => exact advance_accounts hs hb h

theorem feedAll_accounts {r r' : Reader} (hr : Accounts r ts) (h : r.feedAll us = .ok r') :
    Accounts r' (ts ++ us) := by
  induction us generalizing r ts with
  | nil =>
    cases h
    rwa [List.append_nil]
  | cons t us ih =>
    obtain ⟨r₁, hfeed, hrest⟩ := exists_of_bind_eq_ok h
    rw [List.append_cons]
    exact ih (feed_accounts hr hfeed) hrest

theorem Derives.program {ss : List Stmt} (h : Derives .items ts ss) : Derives .program ts ss := by
  obtain ⟨t, htokens, hvalue, hclear⟩ := h
  exact ⟨.program t, htokens, hvalue, hclear⟩

theorem whole_derives {s : Stmt} {p : Program} (hs : Stacked pending ts)
    (hstmt : Derives .statement us s) (h : whole s pending = .ok p) :
    Derives .program (ts ++ us) p := by
  unfold whole at h
  split at h
  · rename_i done hadd
    cases h
    obtain ⟨p, rest, vs, ws, heq, hrest, hfull, htokens⟩ := full_of_addStatement? hs hadd hstmt
    cases heq
    cases hrest
    cases hfull with
    | program hitems =>
      rw [← htokens]
      exact hitems.program
  · cases h

theorem finish_derives {r : Reader} {p : Program} (hr : Accounts r ts) (h : r.finish = .ok p) :
    Derives .program ts p := by
  cases hr with
  | @item q rest _ hq hs =>
    obtain ⟨us, vs, rfl, hrest, hbegun⟩ := hs.pop
    have hfull := full_of_isBody hbegun hq
    cases hfull with
    | program hitems =>
      cases hrest with
      | nil =>
        cases h
        exact hitems.program
      | cons _ _ => cases h
    | _ => cases h
  | @more pending e us vs hs he =>
    obtain ⟨q, hq, hrest⟩ := exists_of_bind_eq_ok h
    obtain ⟨u, hu, hwhole⟩ := exists_of_bind_eq_ok hrest
    obtain ⟨ts₁, us₁, hs₁, he₁, heq₁⟩ := settle_derives hs he.operand.open hq
    obtain ⟨ts₂, us₂, hs₂, hstmt, heq₂⟩ := statement_derives hs₁ he₁ hu
    rw [← heq₁, ← heq₂]
    exact whole_derives hs₂ hstmt hwhole
  | ended hs hd => exact whole_derives hs hd.statement h
  | _ => cases h

/-- The tokens of a program that is read are derived by a clear tree that stands for the program. -/
theorem derives_of_readTokens {p : Program} (h : readTokens ts = .ok p) :
    Derives .program ts p := by
  have hstart : Accounts Reader.start [] := .item trivial (Stacked.nil.cons (.program .nil))
  obtain ⟨r, hr, hfinish⟩ := exists_of_bind_eq_ok h
  exact finish_derives (feedAll_accounts hstart hr) hfinish

end Grammar

end ModuleScript
