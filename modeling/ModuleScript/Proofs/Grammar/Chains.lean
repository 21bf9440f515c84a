import ModuleScript.Proofs.Grammar.Operands
import ModuleScript.Proofs.Printing.Printer
import ModuleScript.Proofs.Reading.Forms

/-!
# Chains of operations

Operands with binary operators between them are read as the one tree in which, of two operators that
compete for an operand, the one of the higher level takes it, and the left one if the levels are the
same. The reader holds what is left of the operators that wait for their right operands; their levels
rise, and the next operator takes over what is left of those that do not lie below it.
-/

set_option autoImplicit false

namespace ModuleScript

/-- Operators in front of tokens that alone are read as one expression. -/
structure Operand where
  signs : List (Location × UnaryOp)
  core : List Token
  meaning : Expr
  reads : readTokens core = .ok [.expr meaning]

namespace Operand

def signToken (s : Location × UnaryOp) : Token := ⟨.mark s.2.mark, s.1⟩

def tokens (o : Operand) : List Token := o.signs.map signToken ++ o.core

/-- The operators in front, each applied to all that is behind it in the operand. -/
def signed (signs : List (Location × UnaryOp)) (e : Expr) : Expr :=
  signs.foldr (fun s e => .unary s.1 s.2 e) e

def expr (o : Operand) : Expr := signed o.signs o.meaning

/-- A primary with any number of calls behind it. -/
def IsApplied (o : Operand) : Prop := ∃ t : Grammar.Tree .applied, t.tokens = o.core

/-- A binding, a function, a condition or a match that begins at the location. -/
def IsForm (o : Operand) (l : Location) : Prop :=
  ∃ k ts, o.core = ⟨.keyword k, l⟩ :: ts ∧ k.OpensForm ∧
    ∀ t ∈ ts.getLast?, t.kind ≠ .newline ∧ t.kind ≠ .mark .semicolon

end Operand

/-- Operands, each with the operator behind it, and a last one. -/
structure Chain where
  inner : List (Operand × Location × BinaryOp)
  last : Operand

namespace Chain

def operatorToken (l : Location) (op : BinaryOp) : Token := ⟨.mark op.mark, l⟩

def innerTokens (inner : List (Operand × Location × BinaryOp)) : List Token :=
  inner.flatMap fun x => x.1.tokens ++ [operatorToken x.2.1 x.2.2]

def tokens (c : Chain) : List Token := innerTokens c.inner ++ c.last.tokens

end Chain

/-- Operations on operands. -/
inductive Tower where
  | leaf (o : Operand)
  | node (left : Tower) (l : Location) (op : BinaryOp) (right : Tower)

namespace Tower

def expr : Tower → Expr
  | leaf o => o.expr
  | node a l op b => .binary l op a.expr b.expr

def last : Tower → Operand
  | leaf o => o
  | node _ _ _ b => b.last

def inner : Tower → List (Operand × Location × BinaryOp)
  | leaf _ => []
  | node a l op b => a.inner ++ (a.last, l, op) :: b.inner

/-- The operands and operators from left to right. -/
def chain (t : Tower) : Chain := ⟨t.inner, t.last⟩

def root? : Tower → Option BinaryOp
  | leaf _ => none
  | node _ _ op _ => some op

/-- An operand, or an operation of at least the level. -/
def Above (level : Nat) (t : Tower) : Prop := ∀ op ∈ t.root?, level ≤ op.level

/-- At the left of an operator no operator is of a lower level, at its right each is of a higher. -/
def Leveled : Tower → Prop
  | leaf _ => True
  | node a _ op b => a.Above op.level ∧ b.Above (op.level + 1) ∧ a.Leveled ∧ b.Leveled

variable {a b t t' : Tower} {level : Nat} {l : Location} {op : BinaryOp}

theorem above_leaf (level : Nat) (o : Operand) : (leaf o).Above level := nofun

theorem above_node (h : level ≤ op.level) : (node a l op b).Above level := by
  rintro _ ⟨⟩
  exact h

/-! ## The tree of a chain -/

theorem level_of_leveled (ht : t.Leveled) (h : t.Above level) :
    ∀ x ∈ t.inner, level ≤ x.2.2.level := by
  induction t generalizing level with
  | leaf o => exact nofun
  | node a l op b iha ihb =>
    obtain ⟨ha, hb, hleveleda, hleveledb⟩ := ht
    have hop : level ≤ op.level := h op rfl
    intro x hx
    rcases List.mem_append.mp hx with hx | hx
    · exact Nat.le_trans hop (iha hleveleda ha x hx)
    · rcases List.mem_cons.mp hx with rfl | hx
      · exact hop
      · exact Nat.le_trans (Nat.le_succ_of_le hop) (ihb hleveledb hb x hx)

/-- Of two places for the root, one would be at the wrong side of the other. -/
theorem root_unique {c d : Tower} {k : Location} {o : BinaryOp} (ht : (node a l op b).Leveled)
    (ht' : (node c k o d).Leveled)
    (h : a.inner ++ (a.last, l, op) :: b.inner = c.inner ++ (c.last, k, o) :: d.inner) :
    a.inner = c.inner ∧ (a.last, l, op) = (c.last, k, o) ∧ b.inner = d.inner := by
  have hwrong : ∀ {a b c d : Tower} {l k : Location} {op o : BinaryOp} {xs},
      (node a l op b).Leveled → (node c k o d).Leveled →
      c.inner = a.inner ++ (a.last, l, op) :: xs → b.inner = xs ++ (c.last, k, o) :: d.inner →
      False := by
    intro a b c d l k op o xs ht ht' hc hb
    have hright := level_of_leveled ht.2.2.2 ht.2.1 (c.last, k, o) (by rw [hb]; simp)
    have hleft := level_of_leveled ht'.2.2.1 ht'.1 (a.last, l, op) (by rw [hc]; simp)
    dsimp only at hright hleft
    omega
  rcases List.append_eq_append_iff.mp h with ⟨xs, hc, hrest⟩ | ⟨xs, ha, hrest⟩
  · cases xs with
    | nil =>
      obtain ⟨hop, hb⟩ := List.cons.inj hrest
      exact ⟨(hc.trans (List.append_nil _)).symm, hop, hb⟩
    | cons x xs =>
      obtain ⟨rfl, hb⟩ := List.cons.inj hrest
      exact (hwrong ht ht' hc hb).elim
  · cases xs with
    | nil =>
      obtain ⟨hop, hb⟩ := List.cons.inj hrest
      exact ⟨ha.trans (List.append_nil _), hop.symm, hb.symm⟩
    | cons x xs =>
      obtain ⟨rfl, hb⟩ := List.cons.inj hrest
      exact (hwrong ht' ht ha hb).elim

/-- The levels leave one tree for a chain. -/
theorem leveled_unique (ht : t.Leveled) (ht' : t'.Leveled) (h : t.chain = t'.chain) : t = t' := by
  injection h with hinner hlast
  induction t generalizing t' with
  | leaf o =>
    cases t' with
    | leaf o' => exact congrArg leaf hlast
    | node c k o' d =>
      have hlength := congrArg List.length hinner
      simp [inner] at hlength
  | node a l op b iha ihb =>
    cases t' with
    | leaf o =>
      have hlength := congrArg List.length hinner
      simp [inner] at hlength
    | node c k o d =>
      obtain ⟨ha, hop, hb⟩ := root_unique ht ht' hinner
      injection hop with hlasta hop
      injection hop with hl hop
      rw [iha ht.2.2.1 ht'.2.2.1 ha hlasta, ihb ht.2.2.2 ht'.2.2.2 hb hlast, hl, hop]

end Tower

namespace Reader

variable {base : List Pending} {level : Nat}

/-! ## Operators in front -/

/-- The operators in front of an operand, the innermost first. -/
def signsPending (signs : List (Location × UnaryOp)) : List Pending :=
  (signs.map fun s => .unary s.1 s.2).reverse

theorem signsPending_cons (s : Location × UnaryOp) (signs : List (Location × UnaryOp)) :
    signsPending (s :: signs) ++ base = signsPending signs ++ (.unary s.1 s.2 :: base) := by
  simp [signsPending]

theorem feedAll_signs (signs : List (Location × UnaryOp)) (base : List Pending) :
    feedAll ⟨base, .operand⟩ (signs.map Operand.signToken) =
      .ok ⟨signsPending signs ++ base, .operand⟩ := by
  induction signs generalizing base with
  | nil => rfl
  | cons s signs ih =>
    have hfeed : feed ⟨base, .operand⟩ (Operand.signToken s) =
        .ok ⟨.unary s.1 s.2 :: base, .operand⟩ := by
      obtain ⟨l, op⟩ := s
      cases op <;> rfl
    change (feed _ (Operand.signToken s)).bind _ = _
    rw [hfeed, signsPending_cons]
    exact ih _

theorem settleOperators_signs (signs : List (Location × UnaryOp)) (e : Expr) :
    settleOperators level (signsPending signs ++ base) e =
      settleOperators level base (Operand.signed signs e) := by
  induction signs generalizing base with
  | nil => rfl
  | cons s signs ih =>
    rw [signsPending_cons, ih]
    rfl

theorem settle_signs (signs : List (Location × UnaryOp)) (e : Expr) :
    settle false (signsPending signs ++ base) e = settle false base (Operand.signed signs e) := by
  induction signs generalizing base with
  | nil => rfl
  | cons s signs ih =>
    rw [signsPending_cons, ih]
    rfl

/-! ## Operators that wait -/

/-- What is left of an operator that waits for its right operand. -/
structure Waiting where
  left : Tower
  location : Location
  op : BinaryOp

namespace Waiting

def pending (s : Waiting) : Pending := .binary s.location s.op s.left.expr

/-- The tree when all operators that wait take the operand. -/
def build : List Waiting → Tower → Tower
  | [], t => t
  | s :: ws, t => build ws (.node s.left s.location s.op t)

def inner : List Waiting → List (Operand × Location × BinaryOp)
  | [] => []
  | s :: ws => inner ws ++ (s.left.inner ++ [(s.left.last, s.location, s.op)])

/-- The levels of the operators that wait rise, from the bottom up. -/
def Rising : List Waiting → Prop
  | [] => True
  | s :: ws => s.left.Leveled ∧ s.left.Above s.op.level ∧
      (∀ u ∈ ws.head?, u.op.level < s.op.level) ∧ Rising ws

variable {ws : List Waiting} {t : Tower}

theorem inner_build (ws : List Waiting) (t : Tower) :
    (build ws t).inner = inner ws ++ t.inner := by
  induction ws generalizing t with
  | nil => rfl
  | cons s ws ih => simp [build, inner, ih, Tower.inner]

theorem last_build (ws : List Waiting) (t : Tower) : (build ws t).last = t.last := by
  induction ws generalizing t with
  | nil => rfl
  | cons s ws ih => exact ih _

theorem leveled_build (hrising : Rising ws) (ht : t.Leveled)
    (hfits : ∀ s ∈ ws.head?, t.Above (s.op.level + 1)) : (build ws t).Leveled := by
  induction ws generalizing t with
  | nil => exact ht
  | cons s ws ih =>
    obtain ⟨hleft, habove, hbelow, hrising⟩ := hrising
    refine ih hrising ⟨habove, hfits s rfl, hleft, ht⟩ fun u hu => ?_
    exact Tower.above_node (hbelow u hu)

/-- An operator ends those that wait, from the top, down to a lower one. -/
theorem settleOperators_waiting (hbase : Firm base) (level : Nat) (hrising : Rising ws)
    (ht : t.Leveled) (hfits : ∀ s ∈ ws.head?, t.Above (s.op.level + 1))
    (habove : t.Above level) : ∃ ws' t',
      settleOperators level (ws.map pending ++ base) t.expr =
        (ws'.map pending ++ base, t'.expr) ∧
      build ws' t' = build ws t ∧ Rising ws' ∧ t'.Leveled ∧ t'.Above level ∧
      ∀ s ∈ ws'.head?, s.op.level < level := by
  induction ws generalizing t with
  | nil => exact ⟨[], t, hbase.operators level t.expr, rfl, trivial, ht, habove, nofun⟩
  | cons s ws ih =>
    by_cases hlevel : level ≤ s.op.level
    · obtain ⟨hleft, habove', hbelow, hrising⟩ := hrising
      obtain ⟨ws', t', hsettle, hrest⟩ := ih (t := .node s.left s.location s.op t) hrising
        ⟨habove', hfits s rfl, hleft, ht⟩ (fun u hu => Tower.above_node (hbelow u hu))
        (Tower.above_node hlevel)
      refine ⟨ws', t', ?_, hrest⟩
      exact (if_pos hlevel).trans hsettle
    · refine ⟨s :: ws, t, if_neg hlevel, rfl, hrising, ht, habove, ?_⟩
      rintro _ ⟨⟩
      exact Nat.lt_of_not_le hlevel

theorem settle_waiting (ws : List Waiting) (t : Tower) (base : List Pending) :
    settle false (ws.map pending ++ base) t.expr = settle false base (build ws t).expr := by
  induction ws generalizing t with
  | nil => rfl
  | cons s ws ih => exact ih (.node s.left s.location s.op t)

end Waiting

/-! ## Reading chains -/

theorem feedAll_applied_operand {o : Operand} (ho : o.IsApplied) (base : List Pending) :
    feedAll ⟨base, .operand⟩ o.tokens = .ok ⟨signsPending o.signs ++ base, .more o.meaning none⟩ := by
  obtain ⟨t, ht⟩ := ho
  have hcore := Grammar.feedAll_applied t (by rw [ht]; exact o.reads)
  rw [ht] at hcore
  unfold Operand.tokens
  rw [feedAll_append, feedAll_signs]
  exact hcore _

/-- One operand and the operator behind it. -/
theorem feedAll_operation {ws : List Waiting} {o : Operand} (hbase : Firm base)
    (hrising : Waiting.Rising ws) (ho : o.IsApplied) (l : Location) (op : BinaryOp) :
    ∃ ws', feedAll ⟨ws.map Waiting.pending ++ base, .operand⟩
        (o.tokens ++ [Chain.operatorToken l op]) = .ok ⟨ws'.map Waiting.pending ++ base, .operand⟩ ∧
      Waiting.Rising ws' ∧ Waiting.inner ws' = Waiting.inner ws ++ [(o, l, op)] := by
  obtain ⟨ws', t, hsettle, hbuild, hrising', ht, habove, hbelow⟩ :=
    Waiting.settleOperators_waiting hbase op.level hrising (t := .leaf o) trivial
      (fun s _ => Tower.above_leaf _ o) (Tower.above_leaf _ o)
  refine ⟨⟨t, l, op⟩ :: ws', ?_, ⟨ht, habove, hbelow, hrising'⟩, ?_⟩
  · have hf : follower? (.mark op.mark) = some (.operator op) := by
      cases op <;> rfl
    have hfeed := continueWith_operator (t := Chain.operatorToken l op) hf
      (signsPending o.signs ++ (ws.map Waiting.pending ++ base)) o.meaning
    rw [settleOperators_signs] at hfeed
    rw [feedAll_append, feedAll_applied_operand ho]
    change ((feed ⟨_, .more o.meaning none⟩ (Chain.operatorToken l op)).bind _) = _
    have hfeed' : feed ⟨signsPending o.signs ++ (ws.map Waiting.pending ++ base), .more o.meaning none⟩
        (Chain.operatorToken l op) = _ := hfeed
    rw [hfeed']
    change Except.ok (Reader.mk (.binary l op (settleOperators op.level _ (Tower.leaf o).expr).2 ::
      (settleOperators op.level _ (Tower.leaf o).expr).1) _) = _
    rw [hsettle]
    rfl
  · have hinner := congrArg Tower.inner hbuild
    have hlast := congrArg Tower.last hbuild
    rw [Waiting.inner_build, Waiting.inner_build] at hinner
    rw [Waiting.last_build, Waiting.last_build] at hlast
    change Waiting.inner ws' ++ (t.inner ++ [(t.last, l, op)]) = _
    rw [hlast, ← List.append_assoc, hinner, List.append_assoc]
    rfl

theorem feedAll_inner (ws : List Waiting) {xs : List (Operand × Location × BinaryOp)}
    (hbase : Firm base) (hrising : Waiting.Rising ws) (hxs : ∀ x ∈ xs, x.1.IsApplied) :
    ∃ ws', feedAll ⟨ws.map Waiting.pending ++ base, .operand⟩ (Chain.innerTokens xs) =
        .ok ⟨ws'.map Waiting.pending ++ base, .operand⟩ ∧
      Waiting.Rising ws' ∧ Waiting.inner ws' = Waiting.inner ws ++ xs := by
  induction xs generalizing ws with
  | nil => exact ⟨ws, rfl, hrising, (List.append_nil _).symm⟩
  | cons x xs ih =>
    obtain ⟨o, l, op⟩ := x
    obtain ⟨ws₁, hfeed, hrising₁, hinner₁⟩ :=
      feedAll_operation hbase hrising (hxs _ (.head _)) l op
    obtain ⟨ws', hrest, hrising', hinner⟩ := ih ws₁ hrising₁ fun x hx => hxs x (.tail _ hx)
    refine ⟨ws', ?_, hrising', ?_⟩
    · change feedAll _ ((o.tokens ++ [Chain.operatorToken l op]) ++ Chain.innerTokens xs) = _
      rw [feedAll_append, hfeed]
      exact hrest
    · rw [hinner, hinner₁, List.append_assoc]
      rfl

end Reader

open Reader Grammar

/-! ## Beginnings of chains -/

theorem begins_append {ts : List Token} (h : Begins ts) (us : List Token) : Begins (ts ++ us) := by
  obtain ⟨t, ts, rfl, hopens⟩ := h
  exact ⟨t, ts ++ us, rfl, hopens⟩

theorem opens_of_beginsPrimary {k : Token.Kind} (h : BeginsPrimary k) : Opens k := by
  cases k with
  | keyword w =>
    rcases h with rfl | rfl
    · exact .of_keyword fun _ _ => ⟨rfl, rfl⟩
    · exact .of_keyword fun _ _ => ⟨rfl, rfl⟩
  | mark m => rcases h with rfl | rfl | rfl <;> exact .of_mark fun _ _ => ⟨rfl, rfl⟩
  | newline => exact h.elim
  | _ => exact opens_of_startOperand fun _ _ => ⟨rfl, rfl⟩

namespace Operand

variable {o : Operand}

theorem begins_of_core (h : Begins o.core) : Begins o.tokens := by
  unfold tokens
  cases o.signs with
  | nil => exact h
  | cons s signs =>
    refine ⟨signToken s, _, rfl, ?_⟩
    obtain ⟨l, op⟩ := s
    cases op <;> exact .of_mark fun _ _ => ⟨rfl, rfl⟩

theorem IsApplied.begins (h : o.IsApplied) : Begins o.tokens := by
  obtain ⟨t, ht⟩ := h
  obtain ⟨u, us, hcore, hu⟩ := applied_begins t
  exact begins_of_core ⟨u, us, ht.symm.trans hcore, opens_of_beginsPrimary hu⟩

theorem IsForm.begins {l : Location} (h : o.IsForm l) : Begins o.tokens := by
  obtain ⟨k, ts, hcore, hk, -⟩ := h
  refine begins_of_core ⟨_, ts, hcore, ?_⟩
  rcases hk with rfl | rfl | rfl | rfl <;> exact .of_keyword fun _ _ => ⟨rfl, rfl⟩

/-- The last operand of a chain settles to what it is alone. -/
theorem feedAll_last (h : o.IsApplied ∨ ∃ l, o.IsForm l) (base : List Pending) :
    ∃ opened e, feedAll ⟨base, .operand⟩ o.tokens = .ok ⟨opened ++ base, .more e none⟩ ∧
      settle false (opened ++ base) e = settle false base o.expr := by
  rcases h with happlied | ⟨l, k, ts, hcore, hk, hlast⟩
  · exact ⟨_, _, feedAll_applied_operand happlied base, settle_signs o.signs o.meaning⟩
  · obtain ⟨-, opened, e, hfeed, hsettle⟩ := feedAll_form hk (hcore ▸ o.reads) hlast
    refine ⟨opened ++ signsPending o.signs, e, ?_, ?_⟩
    · rw [tokens, feedAll_append, feedAll_signs, hcore, List.append_assoc]
      exact hfeed _
    · rw [List.append_assoc, hsettle]
      exact settle_signs o.signs o.meaning

end Operand

namespace Chain

theorem begins (c : Chain) (hinner : ∀ x ∈ c.inner, x.1.IsApplied)
    (hlast : c.last.IsApplied ∨ ∃ l, c.last.IsForm l) : Begins c.tokens := by
  obtain ⟨inner, last⟩ := c
  cases inner with
  | nil => exact hlast.elim (·.begins) fun ⟨l, h⟩ => h.begins
  | cons x xs =>
    have hfirst := (hinner x (.head _)).begins
    change Begins (((x.1.tokens ++ [operatorToken x.2.1 x.2.2]) ++ innerTokens xs) ++ last.tokens)
    exact begins_append (begins_append (begins_append hfirst _) _) _

/-- A chain is read wherever an operand may come, and what it settles to is its tree. -/
theorem feedAll_tokens (c : Chain) {base : List Pending} (hbase : Firm base)
    (hinner : ∀ x ∈ c.inner, x.1.IsApplied) (hlast : c.last.IsApplied ∨ ∃ l, c.last.IsForm l) :
    ∃ t : Tower, t.chain = c ∧ t.Leveled ∧ ∃ opened e,
      feedAll ⟨base, .operand⟩ c.tokens = .ok ⟨opened ++ base, .more e none⟩ ∧
      settle false (opened ++ base) e = settle false base t.expr := by
  obtain ⟨ws, hws, hrising, heq⟩ := feedAll_inner [] hbase trivial hinner
  obtain ⟨opened, e, hend, hsettle⟩ := Operand.feedAll_last hlast (ws.map Waiting.pending ++ base)
  refine ⟨Waiting.build ws (.leaf c.last), ?_, ?_, opened ++ ws.map Waiting.pending, e, ?_, ?_⟩
  · have hinner' : (Waiting.build ws (.leaf c.last)).inner = c.inner := by
      rw [Waiting.inner_build, heq]
      exact List.append_nil _
    rw [Tower.chain, hinner', Waiting.last_build]
    rfl
  · exact Waiting.leveled_build hrising trivial fun _ _ => Tower.above_leaf _ _
  · have hwaiting : feedAll ⟨base, .operand⟩ (innerTokens c.inner) =
        .ok ⟨ws.map Waiting.pending ++ base, .operand⟩ := hws
    rw [tokens, feedAll_append, hwaiting, List.append_assoc]
    exact hend
  · rw [List.append_assoc, hsettle]
    exact Waiting.settle_waiting ws (.leaf c.last) base

end Chain

/-- A chain of operands is read as the one tree on them in which at the left of an operator no
operator is of a lower level and at its right each is of a higher. Operators in front apply to their
operands, and a form in the last place is the whole operand, down to the end. -/
theorem read_chain (c : Chain) (hinner : ∀ x ∈ c.inner, x.1.IsApplied)
    (hlast : c.last.IsApplied ∨ ∃ l, c.last.IsForm l) :
    (∃ t : Tower, t.chain = c ∧ t.Leveled ∧ (∀ t' : Tower, t'.chain = c → t'.Leveled → t' = t) ∧
      readTokens c.tokens = .ok [.expr t.expr] ∧
      ∀ file source, tokenize file source = (c.tokens, none) →
        readProgram file source = .ok [.expr t.expr]) ∧
    ∀ l, c.last.IsForm l → c.last.meaning.FormAt l := by
  have hbase : Firm [.program []] := ⟨fun _ _ => rfl, fun _ _ => rfl⟩
  obtain ⟨t, hchain, hleveled, opened, e, hall, hsettle⟩ := c.feedAll_tokens hbase hinner hlast
  obtain ⟨u, us, htokens, hopens⟩ := c.begins hinner hlast
  have hread : readTokens c.tokens = .ok [.expr t.expr] := by
    change (feedAll ⟨[.program []], .item⟩ c.tokens).bind finish = _
    rw [feedAll_item hopens (by rw [htokens, List.map_cons]), hall]
    change finish ⟨opened ++ [.program []], .more e none⟩ = _
    rw [finish_more, hsettle]
    rfl
  refine ⟨⟨t, hchain, hleveled, fun t' ht' hleveled' => ?_, hread, fun file source h => ?_⟩,
    fun l hform => ?_⟩
  · exact Tower.leveled_unique hleveled' hleveled (ht'.trans hchain.symm)
  · rw [readProgram_of_tokenize h, hread]
    rfl
  · obtain ⟨k, ts, hcore, hk, hlast⟩ := hform
    exact (feedAll_form hk (hcore ▸ c.last.reads) hlast).1

/-! ## A chain with all of these -/

/-- The operand `-f(a)`. -/
def negatedCall : Operand where
  signs := [(column 1, .negate)]
  core := [⟨.identifier "f", column 2⟩, ⟨.mark .leftParen, column 3⟩, ⟨.identifier "a", column 4⟩,
    ⟨.mark .rightParen, column 5⟩]
  meaning := .call (column 2) (.name (column 2) "f") [.name (column 4) "a"]
  reads := rfl

theorem negatedCall_isApplied : negatedCall.IsApplied :=
  ⟨.call (.uncalled (.name (column 2) "f")) (column 3) (column 5)
    (.someArguments (.oneArgument (nameAt 4 "a"))), rfl⟩

/-- The operand `(b + c)`. -/
def groupedSumOperand : Operand where
  signs := []
  core := [⟨.mark .leftParen, column 9⟩, ⟨.identifier "b", column 10⟩, ⟨.mark .plus, column 12⟩,
    ⟨.identifier "c", column 14⟩, ⟨.mark .rightParen, column 15⟩]
  meaning := .binary (column 12) .add (.name (column 10) "b") (.name (column 14) "c")
  reads := rfl

theorem groupedSumOperand_isApplied : groupedSumOperand.IsApplied :=
  ⟨.uncalled (.group (column 9) (column 15) (.binary (column 12)
    (rfl : Mark.plus.binary? = some .add) (nameAt 10 "b") (nameAt 14 "c"))), rfl⟩

def nameOperand : Operand where
  signs := []
  core := [⟨.identifier "x", column 19⟩]
  meaning := .name (column 19) "x"
  reads := rfl

theorem nameOperand_isApplied : nameOperand.IsApplied :=
  ⟨.uncalled (.name (column 19) "x"), rfl⟩

/-- The operand `let y = d || e`. -/
def bindingOperand : Operand where
  signs := []
  core := [⟨.keyword .letWord, column 23⟩, ⟨.identifier "y", column 27⟩, ⟨.mark .assign, column 29⟩,
    ⟨.identifier "d", column 31⟩, ⟨.mark .orOr, column 33⟩, ⟨.identifier "e", column 36⟩]
  meaning := .binding (column 23) "y"
    (.binary (column 33) .or (.name (column 31) "d") (.name (column 36) "e"))
  reads := rfl

def mixedChain : Chain where
  inner := [(negatedCall, column 7, .multiply), (groupedSumOperand, column 17, .less),
    (nameOperand, column 21, .add)]
  last := bindingOperand

def mixedTower : Tower :=
  .node (.node (.leaf negatedCall) (column 7) .multiply (.leaf groupedSumOperand)) (column 17) .less
    (.node (.leaf nameOperand) (column 21) .add (.leaf bindingOperand))

theorem read_chain_mixed :
    (∀ x ∈ mixedChain.inner, x.1.IsApplied) ∧ mixedChain.last.IsForm (column 23) ∧
      readProgram "main" "-f(a) * (b + c) < x + let y = d || e" = .ok [.expr mixedTower.expr] ∧
      mixedChain.last.meaning.FormAt (column 23) := by
  have hinner : ∀ x ∈ mixedChain.inner, x.1.IsApplied := by
    simp only [mixedChain, List.forall_mem_cons]
    exact ⟨negatedCall_isApplied, groupedSumOperand_isApplied, nameOperand_isApplied, nofun⟩
  have hform : mixedChain.last.IsForm (column 23) :=
    ⟨.letWord, _, rfl, .inl rfl, by rintro _ ⟨⟩; exact ⟨nofun, nofun⟩⟩
  have hscan : tokenize "main" "-f(a) * (b + c) < x + let y = d || e" =
      (mixedChain.tokens, none) := by decide +kernel
  have hleveled : mixedTower.Leveled := by
    simp [mixedTower, Tower.Leveled, Tower.Above, Tower.root?, BinaryOp.level]
  obtain ⟨⟨t, -, -, hunique, -, hread⟩, hmeaning⟩ := read_chain mixedChain hinner (.inr ⟨_, hform⟩)
  refine ⟨hinner, hform, ?_, hmeaning _ hform⟩
  rw [hread _ _ hscan, hunique mixedTower rfl hleveled]

end ModuleScript
