import ModuleScript.Proofs.Grammar.Open
import ModuleScript.Proofs.Grammar.Tree

/-!
# What is derived is read

A reader that is given the tokens of a tree goes on to the end, unless it reports what a construct is
made of. After an expression it holds a match open to the right exactly if there was one before or
one is trailing, so where no subject has a match trailing, each bar finds a match that awaits it.
-/

set_option autoImplicit false

namespace ModuleScript.Grammar

open Reader

variable {opened base pending : List Pending}

/-! ## Trees -/

/-- The first token begins an operand and nothing else. -/
def Begins (ts : List Token) : Prop := ∃ t us, ts = t :: us ∧ Opens t.kind

/-- A construct that holds expressions with commas between them up to a closing mark. -/
structure Bracket (p : List Expr → Pending) (closing : Token.Kind) : Prop where
  firm : ∀ done pending, Firm (p done :: pending)
  comma : ∀ done pending e l, close ⟨.mark .comma, l⟩ .comma (p done :: pending) e =
    .ok ⟨p (done ++ [e]) :: pending, .operand⟩
  empty : ∀ pending l, ∃ e, startOrClose ⟨closing, l⟩ (p [] :: pending) =
    .ok ⟨pending, .more e none⟩
  closer : ∃ c, follower? closing = some (.closer c) ∧ (c == .bar) = false ∧
    ∀ done pending e l, ∃ e', close ⟨closing, l⟩ c (p done :: pending) e =
      .ok ⟨pending, .more e' none⟩

/-- What a reader does with the tokens of a tree, wherever they may stand. -/
def Read : (s : Symbol) → Tree s → Prop
  | .program, t => Takes Reader.start t.tokens (Completed fun done => [.program done])
  | .items, t | .item, t | .statement, t | .declaration, t =>
    ∀ p done, Body p → Takes ⟨p done, .item⟩ t.tokens (Completed p)
  | .separator, t => ∃ u : Token, t.tokens = [u] ∧ (u.kind = .newline ∨ u.kind = .mark .semicolon)
  | .importNames, t => ∀ pending l, Takes ⟨pending, .within (.impWord l [])⟩ t.tokens
    fun r => ∃ ns, r = ⟨pending, .within (.impName l ns)⟩
  | .expression, t => Begins t.tokens ∧ ∀ opened base, (∀ p ∈ opened, isOpen p = true) →
    Firm base → Takes ⟨opened ++ base, .operand⟩ t.tokens
      (Reaches base (opened.any isArm || t.trailing true))
  | .params, t => ∀ pending l l₁, Takes ⟨pending, .within (.fnParen l)⟩
    (t.tokens ++ [⟨.mark .rightParen, l₁⟩]) fun r => ∃ ps, r = ⟨pending, .within (.fnParams l ps)⟩
  | .paramList, t => ∀ pending l, Takes ⟨pending, .within (.fnParen l)⟩ t.tokens
    fun r => ∃ ps, r = ⟨pending, .within (.fnParam l ps)⟩
  | .arms, t | .arm, t => ∀ base r, Firm base → AtBar base r → Takes r t.tokens (Reaches base true)
  | .applied, t | .primary, t =>
    Begins t.tokens ∧ ∀ pending, Takes ⟨pending, .operand⟩ t.tokens (Stays pending)
  | .arguments, t => ∀ p pending (closing : Token), Bracket p closing.kind →
    Takes ⟨p [] :: pending, .operandOrClose⟩ (t.tokens ++ [closing]) (Stays pending)
  | .argumentList, t => ∀ p pending closing, Bracket p closing →
    Takes ⟨p [] :: pending, .operandOrClose⟩ t.tokens
      fun r => ∃ done armed, Reaches (p done :: pending) armed r

section Parts

variable {t a b c : Tree .expression} {x : Expect} {u : Token} {us : List Token} {l : Location}
  {P : Reader → Prop}

theorem read_part (h : Read .expression t) (hbase : Firm base) (hx : Welcomes x) :
    Takes ⟨base, x⟩ t.tokens (Reaches base (t.trailing true)) := by
  obtain ⟨⟨v, vs, htokens, hopens⟩, hreads⟩ := h
  have hreads := hreads [] base (fun p hp => by cases hp) hbase
  unfold Takes at hreads ⊢
  rw [List.nil_append] at hreads
  rwa [feedAll_welcomes hopens (by rw [htokens, List.map_cons]) hx]

/-- An expression that has a construct to itself, and the token behind it. -/
theorem takes_part (h : Read .expression t) (hbase : Firm base) (hx : Welcomes x) {c : Closer}
    (hf : follower? u.kind = some (.closer c)) (hc : (c == .bar) = false)
    (hclose : ∀ e, Accepts (fun r => Takes r us P) (close u c base e)) :
    Takes ⟨base, x⟩ (t.tokens ++ u :: us) P := by
  apply (read_part h hbase hx).append
  intro r hr
  apply takes_cons
  exact hr.closer hbase hf hc hclose

theorem stays_of_more {e : Expr} : Stays pending ⟨pending, .more e none⟩ :=
  ⟨e, none, rfl, fun _ hf => by cases hf⟩

theorem reaches_open {q : Pending} {opened : List Pending} (h : Read .expression t)
    (hq : isOpen q = true) (hopen : ∀ p ∈ opened, isOpen p = true) (hbase : Firm base) :
    Takes ⟨q :: (opened ++ base), .operand⟩ t.tokens
      (Reaches base ((isArm q || opened.any isArm) || t.trailing true)) := by
  refine h.2 (q :: opened) base (fun p hp => ?_) hbase
  rcases List.mem_cons.mp hp with rfl | hp
  · exact hq
  · exact hopen p hp

/-! ### Expressions -/

theorem read_binding {l₁ l₂ : Location} {n : Ident} (h : Read .expression t) :
    Read .expression (.binding l l₁ l₂ n t) := by
  refine ⟨⟨_, _, rfl, .of_keyword fun _ _ => ⟨rfl, rfl⟩⟩, fun opened base hopen hbase => ?_⟩
  refine takes_step rfl (takes_step rfl (takes_step rfl ?_))
  exact reaches_open h rfl hopen hbase

theorem read_lambda {l₁ l₂ l₃ : Location} {ps : Tree .params} (hps : Read .params ps)
    (h : Read .expression t) : Read .expression (.lambda l l₁ l₂ l₃ ps t) := by
  refine ⟨⟨_, _, rfl, .of_keyword fun _ _ => ⟨rfl, rfl⟩⟩, fun opened base hopen hbase => ?_⟩
  simp only [Tree.tokens, List.cons_append, List.nil_append, List.append_assoc]
  refine takes_step rfl (takes_step rfl ?_)
  rw [List.append_cons]
  apply (hps _ l l₂).append
  rintro _ ⟨names, rfl⟩
  exact takes_step rfl (reaches_open h rfl hopen hbase)

theorem read_cond {l₁ l₂ : Location} (ha : Read .expression a) (hb : Read .expression b)
    (hc : Read .expression c) : Read .expression (.cond l l₁ l₂ a b c) := by
  refine ⟨⟨_, _, rfl, .of_keyword fun _ _ => ⟨rfl, rfl⟩⟩, fun opened base hopen hbase => ?_⟩
  simp only [Tree.tokens, List.cons_append, List.append_assoc]
  refine takes_step rfl ?_
  refine takes_part ha ⟨fun _ _ => rfl, fun _ _ => rfl⟩ (.inr (.inl rfl)) rfl rfl fun e => .ok ?_
  refine takes_part hb ⟨fun _ _ => rfl, fun _ _ => rfl⟩ (.inr (.inl rfl)) rfl rfl fun e => .ok ?_
  exact reaches_open hc rfl hopen hbase

theorem read_unary {m : Mark} {op : UnaryOp} (hop : m.unary? = some op)
    (h : Read .expression t) : Read .expression (.unary l hop t) := by
  have hopens : Opens (.mark m) := by
    cases m <;> cases hop <;> exact .of_mark fun _ _ => ⟨rfl, rfl⟩
  refine ⟨⟨_, _, rfl, hopens⟩, fun opened base hopen hbase => ?_⟩
  have hstart : startOperand ⟨.mark m, l⟩ (opened ++ base) =
      .ok ⟨.unary l op :: (opened ++ base), .operand⟩ := by
    cases m <;> cases hop <;> rfl
  exact takes_step hstart (reaches_open h rfl hopen hbase)

theorem read_binary {m : Mark} {op : BinaryOp} (hop : m.binary? = some op)
    (ha : Read .expression a) (hb : Read .expression b) : Read .expression (.binary l hop a b) := by
  obtain ⟨⟨u, us, hu, hopens⟩, hreads⟩ := ha
  refine ⟨⟨u, us ++ ⟨.mark m, l⟩ :: b.tokens, ?_, hopens⟩, fun opened base hopen hbase => ?_⟩
  · simp [Tree.tokens, hu]
  · have hf : follower? (.mark m) = some (.operator op) := by
      cases m <;> cases hop <;> rfl
    apply (hreads opened base hopen hbase).append
    intro r hr
    apply takes_cons
    apply (hr.operator hbase hf).imp
    rintro _ ⟨opened', rfl, hopen', harmed⟩
    have hright := hb.2 opened' base hopen' hbase
    rw [harmed, Bool.or_assoc] at hright
    exact hright

theorem read_operand {t : Tree .applied} (h : Read .applied t) : Read .expression (.operand t) := by
  refine ⟨h.1, fun opened base hopen hbase => ?_⟩
  apply (h.2 (opened ++ base)).imp
  intro r hr
  exact ⟨opened, hopen, (Bool.or_false _).symm, hr⟩

/-! ### Matches -/

theorem read_select {arms : Tree .arms} (ht : t.trailing true = false) (h : Read .expression t)
    (harms : Read .arms arms) : Read .expression (.select l t arms) := by
  refine ⟨⟨_, _, rfl, .of_keyword fun _ _ => ⟨rfl, rfl⟩⟩, fun opened base hopen hbase => ?_⟩
  have hsubject : Firm (.subject l :: (opened ++ base)) := ⟨fun _ _ => rfl, fun _ _ => rfl⟩
  have htrailing : (opened.any isArm || Tree.trailing true (.select l t arms)) = true :=
    Bool.or_true _
  rw [htrailing]
  simp only [Tree.tokens, List.cons_append]
  refine takes_step rfl ?_
  apply (read_part h hsubject (.inr (.inl rfl))).append
  intro r hr
  rw [ht] at hr
  exact harms base r hbase (hr.subject_atBar hopen)

theorem read_arm {l₁ l₂ : Location} {x : Ident} (h : Read .expression t) :
    Read .arm (.arm l l₁ l₂ x t) := by
  intro base r hbase hr
  apply takes_cons
  apply (hr l).imp
  rintro _ ⟨opened, k, subject, arms, rfl, hopen⟩
  refine takes_step rfl (takes_step rfl ?_)
  exact reaches_open h rfl hopen hbase

theorem read_guardedArm {l₁ l₂ l₃ : Location} {x : Ident} (ha : Read .expression a)
    (hb : Read .expression b) : Read .arm (.guardedArm l l₁ l₂ l₃ x a b) := by
  intro base r hbase hr
  simp only [Tree.tokens, List.cons_append, List.nil_append]
  apply takes_cons
  apply (hr l).imp
  rintro _ ⟨opened, k, subject, arms, rfl, hopen⟩
  refine takes_step rfl (takes_step rfl ?_)
  refine takes_part ha ⟨fun _ _ => rfl, fun _ _ => rfl⟩ (.inr (.inl rfl)) rfl rfl fun e => .ok ?_
  exact reaches_open hb rfl hopen hbase

theorem read_moreArms {ts : Tree .arms} {t : Tree .arm} (hts : Read .arms ts) (ht : Read .arm t) :
    Read .arms (.moreArms ts t) := by
  intro base r hbase hr
  apply (hts base r hbase hr).append
  intro r' hr'
  exact ht base r' hbase (hr'.atBar hbase)

/-! ### Calls and lists -/

theorem read_oneArgument (h : Read .expression t) : Read .argumentList (.oneArgument t) := by
  intro p pending closing hp
  apply (read_part h (hp.firm [] pending) (.inr (.inr rfl))).imp
  intro r hr
  exact ⟨[], _, hr⟩

theorem read_moreArguments {ts : Tree .argumentList} {l₁ : Location}
    (hts : Read .argumentList ts) (h : Read .expression t) :
    Read .argumentList (.moreArguments ts l₁ t) := by
  intro p pending closing hp
  apply (hts p pending closing hp).append
  rintro r ⟨done, armed, hr⟩
  apply takes_cons
  apply hr.closer (hp.firm done pending) (c := .comma) rfl rfl
  intro e
  rw [hp.comma]
  refine .ok ?_
  apply (read_part h (hp.firm _ pending) (.inr (.inl rfl))).imp
  intro r' hr'
  exact ⟨_, _, hr'⟩

theorem read_noArguments : Read .arguments .noArguments := by
  rintro p pending ⟨k, l⟩ hp
  obtain ⟨e, he⟩ := hp.empty pending l
  exact takes_step he (takes_nil stays_of_more)

theorem read_someArguments {t : Tree .argumentList} (h : Read .argumentList t) :
    Read .arguments (.someArguments t) := by
  rintro p pending ⟨k, l⟩ hp
  apply (h p pending k hp).append
  rintro r ⟨done, armed, hr⟩
  obtain ⟨c, hf, hc, hclose⟩ := hp.closer
  apply takes_cons
  apply hr.closer (hp.firm done pending) hf hc
  intro e
  obtain ⟨e', he⟩ := hclose done pending e l
  rw [he]
  exact .ok (takes_nil stays_of_more)

theorem bracket_arguments (f : Expr) : Bracket (.arguments f) (.mark .rightParen) where
  firm _ _ := ⟨fun _ _ => rfl, fun _ _ => rfl⟩
  comma _ _ _ _ := rfl
  empty _ _ := ⟨_, rfl⟩
  closer := ⟨.rightParen, rfl, rfl, fun _ _ _ _ => ⟨_, rfl⟩⟩

theorem bracket_list (l : Location) : Bracket (.list l) (.mark .rightBracket) where
  firm _ _ := ⟨fun _ _ => rfl, fun _ _ => rfl⟩
  comma _ _ _ _ := rfl
  empty _ _ := ⟨_, rfl⟩
  closer := ⟨.rightBracket, rfl, rfl, fun _ _ _ _ => ⟨_, rfl⟩⟩

theorem read_call {f : Tree .applied} {es : Tree .arguments} {l₁ l₂ : Location}
    (hf : Read .applied f) (hes : Read .arguments es) : Read .applied (.call f l₁ l₂ es) := by
  obtain ⟨⟨u, us, hu, hopens⟩, hreads⟩ := hf
  refine ⟨⟨u, us ++ ⟨.mark .leftParen, l₁⟩ :: es.tokens ++ [⟨.mark .rightParen, l₂⟩], ?_, hopens⟩,
    fun pending => ?_⟩
  · simp [Tree.tokens, hu]
  · simp only [Tree.tokens, List.cons_append, List.append_assoc]
    apply (hreads pending).append
    intro r hr
    apply takes_cons
    apply hr.follow (f := .arguments) rfl
    intro e
    exact .ok (hes (.arguments e) pending _ (bracket_arguments e))

/-! ### Primaries -/

theorem read_leaf {t : Tree .primary} {e : Expr} (htokens : t.tokens = [u])
    (hopens : Opens u.kind) (hstart : ∀ pending, startOperand u pending =
      .ok ⟨pending, .more e none⟩) : Read .primary t := by
  refine ⟨⟨u, [], htokens, hopens⟩, fun pending => ?_⟩
  rw [htokens]
  exact takes_step (hstart pending) (takes_nil stays_of_more)

theorem opens_of_startOperand {k : Token.Kind} (h : ∀ l pending,
    startItem ⟨k, l⟩ pending = startOperand ⟨k, l⟩ pending ∧
      startOrClose ⟨k, l⟩ pending = startOperand ⟨k, l⟩ pending) : Opens k := by
  rintro ⟨_, l⟩ rfl pending
  exact h l pending

theorem read_bool (v : Bool) : Read .primary (.bool l v) := by
  cases v with
  | true => exact read_leaf rfl (.of_keyword fun _ _ => ⟨rfl, rfl⟩) fun _ => rfl
  | false => exact read_leaf rfl (.of_keyword fun _ _ => ⟨rfl, rfl⟩) fun _ => rfl

theorem read_group {l₁ : Location} (h : Read .expression t) : Read .primary (.group l l₁ t) := by
  refine ⟨⟨_, _, rfl, opens_leftParen⟩, fun pending => takes_step rfl ?_⟩
  refine takes_part h (walled_group l pending).toFirm (.inr (.inr rfl)) rfl rfl fun e => .ok ?_
  exact takes_nil stays_of_more

theorem read_unit {l₁ : Location} : Read .primary (.unit l l₁) :=
  ⟨⟨_, _, rfl, opens_leftParen⟩, fun _ => takes_step rfl (takes_step rfl (takes_nil stays_of_more))⟩

theorem read_list {es : Tree .arguments} {l₁ : Location} (h : Read .arguments es) :
    Read .primary (.list l l₁ es) := by
  refine ⟨⟨_, _, rfl, .of_mark fun _ _ => ⟨rfl, rfl⟩⟩, fun pending => takes_step rfl ?_⟩
  exact h (.list l) pending _ (bracket_list l)

theorem read_range {l₁ l₂ : Location} (ha : Read .expression a) (hb : Read .expression b) :
    Read .primary (.range l l₁ l₂ a b) := by
  refine ⟨⟨_, _, rfl, .of_mark fun _ _ => ⟨rfl, rfl⟩⟩, fun pending => ?_⟩
  simp only [Tree.tokens, List.cons_append, List.append_assoc]
  refine takes_step rfl ?_
  refine takes_part ha ((bracket_list l).firm [] pending) (.inr (.inr rfl)) rfl rfl fun e => .ok ?_
  refine takes_part hb ⟨fun _ _ => rfl, fun _ _ => rfl⟩ (.inr (.inl rfl)) rfl rfl fun e => .ok ?_
  exact takes_nil stays_of_more

theorem read_comprehension {l₁ l₂ l₃ l₄ : Location} {x : Ident} (ha : Read .expression a)
    (hb : Read .expression b) : Read .primary (.comprehension l l₁ l₂ l₃ l₄ a x b) := by
  refine ⟨⟨_, _, rfl, .of_mark fun _ _ => ⟨rfl, rfl⟩⟩, fun pending => ?_⟩
  simp only [Tree.tokens, List.cons_append, List.nil_append, List.append_assoc]
  refine takes_step rfl ?_
  refine takes_part ha ((bracket_list l).firm [] pending) (.inr (.inr rfl)) rfl rfl fun e => .ok ?_
  refine takes_step rfl (takes_step rfl ?_)
  refine takes_part hb ⟨fun _ _ => rfl, fun _ _ => rfl⟩ (.inr (.inl rfl)) rfl rfl fun e => .ok ?_
  exact takes_nil stays_of_more

theorem read_filtered {l₁ l₂ l₃ l₄ l₅ : Location} {x : Ident} (ha : Read .expression a)
    (hb : Read .expression b) (hc : Read .expression c) :
    Read .primary (.filtered l l₁ l₂ l₃ l₄ l₅ a x b c) := by
  refine ⟨⟨_, _, rfl, .of_mark fun _ _ => ⟨rfl, rfl⟩⟩, fun pending => ?_⟩
  simp only [Tree.tokens, List.cons_append, List.nil_append, List.append_assoc]
  refine takes_step rfl ?_
  refine takes_part ha ((bracket_list l).firm [] pending) (.inr (.inr rfl)) rfl rfl fun e => .ok ?_
  refine takes_step rfl (takes_step rfl ?_)
  refine takes_part hb ⟨fun _ _ => rfl, fun _ _ => rfl⟩ (.inr (.inl rfl)) rfl rfl fun e => .ok ?_
  refine takes_part hc ⟨fun _ _ => rfl, fun _ _ => rfl⟩ (.inr (.inl rfl)) rfl rfl fun e => .ok ?_
  exact takes_nil stays_of_more

theorem semantic_of_blockFlaw {ss : List Stmt} {f : Report} (h : blockFlaw ss = some f) :
    Semantic f := by
  obtain ⟨s, -, rfl⟩ := Option.map_eq_some_iff.mp h
  exact .declarationInBlock s.location

theorem read_block {ts : Tree .items} {l₁ : Location} (h : Read .items ts) :
    Read .primary (.block l l₁ ts) := by
  refine ⟨⟨_, _, rfl, .of_mark fun _ _ => ⟨rfl, rfl⟩⟩, fun pending => takes_step rfl ?_⟩
  apply (h _ [] (body_block l pending)).append
  intro r hr
  apply takes_cons
  apply hr.brace
  intro done
  exact .ok (takes_nil ⟨_, _, rfl, fun f hf => semantic_of_blockFlaw hf⟩)

/-! ### Statements -/

theorem read_statement (h : Read .expression t) : Read .statement (.expression t) := by
  intro p done hp
  have hwalled := hp.walled done
  apply (read_part h hwalled.toFirm (.inl rfl)).imp
  intro r hr
  apply hr.completed hwalled.toFirm hp
  intro e
  rw [hwalled.statement]
  exact .ok rfl

theorem read_publicBinding {l₁ l₂ l₃ : Location} {n : Ident} (h : Read .expression t) :
    Read .declaration (.publicBinding l l₁ l₂ l₃ n t) := by
  intro p done hp
  have hfirm : Firm (.publicBinding l n :: p done) := ⟨fun _ _ => rfl, fun _ _ => rfl⟩
  refine takes_step rfl (takes_step rfl (takes_step rfl (takes_step rfl ?_)))
  apply (read_part h hfirm (.inr (.inl rfl))).imp
  intro r hr
  exact hr.completed hfirm hp fun _ => .ok rfl

theorem read_variation {l₁ l₂ : Location} {n : Ident} (h : Read .expression t) :
    Read .declaration (.variation l l₁ l₂ n t) := by
  intro p done hp
  have hfirm : Firm (.variation l n :: p done) := ⟨fun _ _ => rfl, fun _ _ => rfl⟩
  refine takes_step rfl (takes_step rfl (takes_step rfl ?_))
  apply (read_part h hfirm (.inr (.inl rfl))).imp
  intro r hr
  apply hr.completed hfirm hp
  intro e
  cases e with
  | lambda l' o ps body => exact .ok rfl
  | _ => exact .flaw (.variationWithoutFunction n l)

theorem read_moduleBody {ts : Tree .items} {isPublic : Bool} {n : Ident} {l₁ l₂ l₃ : Location}
    (h : Read .items ts) {p : List Stmt → List Pending} (hp : Body p) (done : List Stmt) :
    Takes ⟨p done, .within (.modWord l isPublic)⟩ (⟨.identifier n, l₁⟩ :: ⟨.mark .leftBrace, l₂⟩ ::
      (ts.tokens ++ [⟨.mark .rightBrace, l₃⟩])) (Completed p) := by
  refine takes_step rfl (takes_step rfl ?_)
  apply (h _ [] (body_module l isPublic n (p done))).append
  intro r hr
  apply takes_cons
  apply hr.brace
  intro ss
  exact .ok (takes_nil (completed_ended hp done _))

theorem read_imports {ns : Tree .importNames} {l₁ l₂ : Location} {path : Text}
    (h : Read .importNames ns) : Read .declaration (.imports l l₁ l₂ ns path) := by
  intro p done hp
  simp only [Tree.tokens, List.cons_append]
  refine takes_step rfl ?_
  apply (h (p done) l).append
  rintro _ ⟨names, rfl⟩
  exact takes_step rfl (takes_step rfl (takes_nil (completed_ended hp done _)))

theorem read_moreItems {ts : Tree .items} {s : Tree .separator} {t : Tree .item}
    (hts : Read .items ts) (hs : Read .separator s) (ht : Read .item t) :
    Read .items (.moreItems ts s t) := by
  intro p done hp
  obtain ⟨u, hu, hseparator⟩ := hs
  simp only [Tree.tokens, List.append_assoc, hu]
  apply (hts p done hp).append
  intro r hr
  apply takes_cons
  apply (hr.separator u hseparator).imp
  rintro _ ⟨done', rfl⟩
  exact ht p done' hp

theorem read_moreImports {t : Tree .importNames} {l₁ l₂ : Location} {n : Ident}
    (h : Read .importNames t) : Read .importNames (.moreImports t l₁ l₂ n) := by
  intro pending l
  apply (h pending l).append
  rintro _ ⟨ns, rfl⟩
  exact takes_step rfl (takes_step rfl (takes_nil ⟨_, rfl⟩))

theorem read_moreParams {t : Tree .paramList} {l₁ l₂ : Location} {n : Ident}
    (h : Read .paramList t) : Read .paramList (.moreParams t l₁ l₂ n) := by
  intro pending l
  apply (h pending l).append
  rintro _ ⟨ns, rfl⟩
  exact takes_step rfl (takes_step rfl (takes_nil ⟨_, rfl⟩))

theorem read_someParams {t : Tree .paramList} (h : Read .paramList t) :
    Read .params (.someParams t) := by
  intro pending l l₁
  apply (h pending l).append
  rintro _ ⟨ns, rfl⟩
  exact takes_step rfl (takes_nil ⟨_, rfl⟩)

end Parts

/-! ## All trees -/

section Names

variable {left : Bool}

theorem clear_importNames (t : Tree .importNames) : t.clear left = true := by
  cases t <;> rfl

theorem clear_params (t : Tree .params) : t.clear left = true := by
  cases t <;> rfl

theorem clear_paramList (t : Tree .paramList) : t.clear left = true := by
  cases t <;> rfl

end Names

/-- The tokens of a clear tree are taken wherever its symbol may stand. -/
theorem read_of_clear {s : Symbol} (t : Tree s) (hclear : t.clear true = true) : Read s t := by
  induction t with
  | program t ih => exact ih hclear _ [] body_program
  | oneItem t ih => exact ih hclear
  | moreItems ts s t ihs ihseparator iht =>
    obtain ⟨hts, ht⟩ := Bool.and_eq_true_iff.mp hclear
    have hs : s.clear true = true := by cases s <;> rfl
    exact read_moreItems (ihs hts) (ihseparator hs) (iht ht)
  | newline l => exact ⟨_, rfl, .inl rfl⟩
  | semicolon l => exact ⟨_, rfl, .inr rfl⟩
  | filled t ih => exact ih hclear
  | blank => exact fun p done _ => takes_nil (completed_item done)
  | expression t ih => exact read_statement (ih hclear)
  | declaration t ih => exact ih hclear
  | publicBinding l l₁ l₂ l₃ n t ih => exact read_publicBinding (ih hclear)
  | variation l l₁ l₂ n t ih => exact read_variation (ih hclear)
  | module l l₁ l₂ l₃ n t ih =>
    exact fun p done hp => takes_step rfl (read_moduleBody (ih hclear) hp done)
  | publicModule l l₁ l₂ l₃ l₄ n t ih =>
    exact fun p done hp => takes_step rfl (takes_step rfl (read_moduleBody (ih hclear) hp done))
  | imports l l₁ l₂ t path ih => exact read_imports (ih (clear_importNames t))
  | oneImport l n => exact fun pending l => takes_step rfl (takes_nil ⟨_, rfl⟩)
  | moreImports t l₁ l₂ n ih => exact read_moreImports (ih (clear_importNames t))
  | binding l l₁ l₂ n t ih => exact read_binding (ih hclear)
  | lambda l l₁ l₂ l₃ ps t ihps ih => exact read_lambda (ihps (clear_params ps)) (ih hclear)
  | cond l l₁ l₂ a b c iha ihb ihc =>
    obtain ⟨ha, hrest⟩ := Bool.and_eq_true_iff.mp hclear
    obtain ⟨hb, hc⟩ := Bool.and_eq_true_iff.mp hrest
    exact read_cond (iha ha) (ihb hb) (ihc hc)
  | select l t arms iht iharms =>
    obtain ⟨htrailing, hrest⟩ := Bool.and_eq_true_iff.mp hclear
    obtain ⟨ht, harms⟩ := Bool.and_eq_true_iff.mp hrest
    have htrailing : t.trailing true = false := by simpa using htrailing
    exact read_select htrailing (iht ht) (iharms harms)
  | binary l hop a b iha ihb =>
    obtain ⟨ha, hb⟩ := Bool.and_eq_true_iff.mp hclear
    exact read_binary hop (iha ha) (ihb hb)
  | unary l hop t ih => exact read_unary hop (ih hclear)
  | operand t ih => exact read_operand (ih hclear)
  | noParams => exact fun pending l l₁ => takes_step rfl (takes_nil ⟨_, rfl⟩)
  | someParams t ih => exact read_someParams (ih (clear_paramList t))
  | oneParam l n => exact fun pending l => takes_step rfl (takes_nil ⟨_, rfl⟩)
  | moreParams t l₁ l₂ n ih => exact read_moreParams (ih (clear_paramList t))
  | oneArm t ih => exact ih hclear
  | moreArms ts t ihs iht =>
    obtain ⟨hts, ht⟩ := Bool.and_eq_true_iff.mp hclear
    exact read_moreArms (ihs hts) (iht ht)
  | arm l l₁ l₂ x t ih => exact read_arm (ih hclear)
  | guardedArm l l₁ l₂ l₃ x a b iha ihb =>
    obtain ⟨ha, hb⟩ := Bool.and_eq_true_iff.mp hclear
    exact read_guardedArm (iha ha) (ihb hb)
  | uncalled t ih => exact ih hclear
  | call f l₁ l₂ es ihf ihes =>
    obtain ⟨hf, hes⟩ := Bool.and_eq_true_iff.mp hclear
    exact read_call (ihf hf) (ihes hes)
  | noArguments => exact read_noArguments
  | someArguments t ih => exact read_someArguments (ih hclear)
  | oneArgument t ih => exact read_oneArgument (ih hclear)
  | moreArguments ts l₁ t ihs iht =>
    obtain ⟨hts, ht⟩ := Bool.and_eq_true_iff.mp hclear
    exact read_moreArguments (ihs hts) (iht ht)
  | number l n => exact read_leaf rfl (opens_of_startOperand fun _ _ => ⟨rfl, rfl⟩) fun _ => rfl
  | float l x => exact read_leaf rfl (opens_of_startOperand fun _ _ => ⟨rfl, rfl⟩) fun _ => rfl
  | string l s => exact read_leaf rfl (opens_of_startOperand fun _ _ => ⟨rfl, rfl⟩) fun _ => rfl
  | char l c => exact read_leaf rfl (opens_of_startOperand fun _ _ => ⟨rfl, rfl⟩) fun _ => rfl
  | bool l v => exact read_bool v
  | name l n => exact read_leaf rfl (opens_of_startOperand fun _ _ => ⟨rfl, rfl⟩) fun _ => rfl
  | dotted l ns => exact read_leaf rfl (opens_of_startOperand fun _ _ => ⟨rfl, rfl⟩) fun _ => rfl
  | group l l₁ t ih => exact read_group (ih hclear)
  | unit l l₁ => exact read_unit
  | block l l₁ ts ih => exact read_block (ih hclear)
  | list l l₁ es ih => exact read_list (ih hclear)
  | range l l₁ l₂ a b iha ihb =>
    obtain ⟨ha, hb⟩ := Bool.and_eq_true_iff.mp hclear
    exact read_range (iha ha) (ihb hb)
  | comprehension l l₁ l₂ l₃ l₄ a x b iha ihb =>
    obtain ⟨ha, hb⟩ := Bool.and_eq_true_iff.mp hclear
    exact read_comprehension (iha ha) (ihb hb)
  | filtered l l₁ l₂ l₃ l₄ l₅ a x b c iha ihb ihc =>
    obtain ⟨ha, hrest⟩ := Bool.and_eq_true_iff.mp hclear
    obtain ⟨hb, hc⟩ := Bool.and_eq_true_iff.mp hrest
    exact read_filtered (iha ha) (ihb hb) (ihc hc)

/-- The tokens of a clear tree for a program are read, unless a construct in them cannot stand. -/
theorem accepts_readTokens (t : Tree .program) (hclear : t.clear true = true) :
    Accepts (fun _ => True) (readTokens t.tokens) := by
  have htaken : Takes Reader.start t.tokens (Completed fun done => [.program done]) :=
    read_of_clear t hclear
  exact Accepts.bind htaken fun r hr => hr.finish rfl

end ModuleScript.Grammar
