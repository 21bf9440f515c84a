import ModuleScript.Proofs.Lexical
import ModuleScript.Proofs.Reading.Feeding

/-!
# Properties of all programs that are read

A property of expressions and statements that every construct of the grammar passes on from its
parts to the whole holds of all that a reader builds. The invariant is that it holds of all parts of
the constructs that have begun.
-/

set_option autoImplicit false

namespace ModuleScript

def Arm.All (E : Expr → Prop) : Arm → Prop
  | .mk _ _ guard body => (∀ e ∈ guard, E e) ∧ E body

namespace Reader

/-- Every construct of the grammar passes the properties on to the whole; that of an import needs the
location it is named after. -/
structure Closed (E : Expr → Prop) (S : Stmt → Prop) (L : Location → Prop) : Prop where
  constant : ∀ l k, E (.constant l k)
  unit : ∀ l, E (.unit l)
  name : ∀ l n, E (.name l n)
  dotted : ∀ l ns, E (.dotted l ns)
  list : ∀ l es, (∀ e ∈ es, E e) → E (.list l es)
  range : ∀ l a b, E a → E b → E (.range l a b)
  comprehension : ∀ l a x b o, E a → E b → (∀ e ∈ o, E e) → E (.comprehension l a x b o)
  unary : ∀ l op e, E e → E (.unary l op e)
  binary : ∀ l op a b, E a → E b → E (.binary l op a b)
  binding : ∀ l n e, E e → E (.binding l n (e.named n))
  lambda : ∀ l (ps : List Ident) e, ps.Nodup → E e → E (.lambda l none ps e)
  applied : ∀ f es, E f → (∀ e ∈ es, E e) → E (f.applied es)
  cond : ∀ l a b c, E a → E b → E c → E (.cond l a b c)
  select : ∀ l e (arms : List Arm), E e → (∀ a ∈ arms, a.All E) → E (.select l e arms)
  block : ∀ l (ss : List Stmt), (∀ s ∈ ss, s.isDeclaration = false) → (∀ s ∈ ss, S s) →
    E (.block l ss)
  expr : ∀ e, E e → S (.expr e)
  publicBinding : ∀ l n e, E e → S (.publicBinding l n (e.named n))
  variation : ∀ l n l' o ps e, E (.lambda l' o ps e) → S (.variation l n l' ps e)
  module : ∀ l isPublic n (ss : List Stmt), (∀ s ∈ ss, S s) → S (.module l isPublic n ss)
  imports : ∀ l ns path, L l → S (.imports l ns path)

section Parts

variable (E : Expr → Prop) (S : Stmt → Prop) (L : Location → Prop)

/-- The parts read so far of a construct that has begun. -/
def Pending.All : Pending → Prop
  | .binary _ _ e | .consequence _ e | .rangeStop _ e | .iterable _ e _ => E e
  | .otherwise _ a b | .filter _ a _ b => E a ∧ E b
  | .armBody _ e arms _ _ test => E e ∧ (∀ a ∈ arms, a.All E) ∧ ∀ g ∈ test, E g
  | .guard _ e arms _ _ => E e ∧ ∀ a ∈ arms, a.All E
  | .arguments f done => E f ∧ ∀ e ∈ done, E e
  | .list _ done => ∀ e ∈ done, E e
  | .block _ done | .moduleBody _ _ _ done | .program done => ∀ s ∈ done, S s
  | _ => True

def Head.All : Head → Prop
  | .bar _ e arms _ | .binder _ e arms _ _ => E e ∧ ∀ a ∈ arms, a.All E
  | .forWord _ e | .forName _ e _ => E e
  | .impWord l _ | .impName l _ | .fromWord l _ => L l
  | _ => True

/-- An expression with a flaw need not have the property: it is never made part of another. -/
def Expect.All : Expect → Prop
  | .more e flaw => flaw = none → E e
  | .ended s => S s
  | .within h => h.All E L
  | _ => True

abbrev AllPending (pending : List Pending) : Prop := ∀ p ∈ pending, p.All E S

structure All (r : Reader) : Prop where
  pending : AllPending E S r.pending
  expect : r.expect.All E S L

end Parts

variable {E : Expr → Prop} {S : Stmt → Prop} {L : Location → Prop}
  {pending : List Pending} {p : Pending} {e : Expr}
  {r r' : Reader} {t : Token}

theorem allPending_cons (hp : p.All E S) (h : AllPending E S pending) :
    AllPending E S (p :: pending) := by
  intro q hq
  rcases List.mem_cons.mp hq with rfl | hq
  · exact hp
  · exact h q hq

theorem AllPending.head (h : AllPending E S (p :: pending)) : p.All E S := h p (.head _)

theorem AllPending.tail (h : AllPending E S (p :: pending)) : AllPending E S pending :=
  fun q hq => h q (.tail _ hq)

theorem all_append {α : Type} {P : α → Prop} {as : List α} {a : α} (h : ∀ b ∈ as, P b) (ha : P a) :
    ∀ b ∈ as ++ [a], P b := by
  intro b hb
  rcases List.mem_append.mp hb with hb | hb
  · exact h b hb
  · rw [List.mem_singleton.mp hb]
    exact ha

variable (hC : Closed E S L)

include hC

/-! ## Ends of constructs -/

theorem settleOperators_all (level : Nat) (hp : AllPending E S pending) (he : E e) :
    AllPending E S (settleOperators level pending e).1 ∧
      E (settleOperators level pending e).2 := by
  induction pending generalizing e with
  | nil => exact ⟨hp, he⟩
  | cons p rest ih =>
    cases p with
    | unary l op => exact ih hp.tail (hC.unary l op e he)
    | binary l op left =>
      unfold settleOperators
      split
      · exact ih hp.tail (hC.binary l op left e hp.head he)
      · exact ⟨hp, he⟩
    | _ => exact ⟨hp, he⟩

theorem settle_all (atBar : Bool) {q : List Pending × Expr} (hp : AllPending E S pending) (he : E e)
    (h : settle atBar pending e = .ok q) : AllPending E S q.1 ∧ E q.2 := by
  induction pending generalizing e with
  | nil =>
    cases h
    exact ⟨hp, he⟩
  | cons p rest ih =>
    have hp' := hp.head
    cases p with
    | unary l op => exact ih hp.tail (hC.unary l op e he) h
    | binary l op left => exact ih hp.tail (hC.binary l op left e hp' he) h
    | binding l n => exact ih hp.tail (hC.binding l n e he) h
    | lambda l params =>
      unfold settle at h
      split at h
      · rename_i hn
        exact ih hp.tail (hC.lambda l params e hn he) h
      · cases h
    | otherwise l condition yes =>
      exact ih hp.tail (hC.cond l condition yes e hp'.1 hp'.2 he) h
    | armBody l subject arms armLocation binder guard =>
      unfold settle at h
      split at h
      · cases h
        exact ⟨hp, he⟩
      · obtain ⟨hs, ha, hg⟩ := hp'
        have harm : (Arm.mk armLocation binder guard e).All E := ⟨hg, he⟩
        have harms := all_append ha harm
        exact ih hp.tail (hC.select l subject _ hs harms) h
    | _ =>
      cases h
      exact ⟨hp, he⟩

theorem statement_all {q : List Pending × Stmt} (hp : AllPending E S pending) (he : E e)
    (h : statement pending e = .ok q) : AllPending E S q.1 ∧ S q.2 := by
  cases pending with
  | nil =>
    cases h
    exact ⟨hp, hC.expr e he⟩
  | cons p rest =>
    cases p with
    | publicBinding l n =>
      cases h
      exact ⟨hp.tail, hC.publicBinding l n e he⟩
    | variation l n =>
      cases e with
      | lambda l' o params body =>
        cases h
        exact ⟨hp.tail, hC.variation l n l' o params body he⟩
      | _ => cases h
    | _ =>
      cases h
      exact ⟨hp, hC.expr e he⟩

omit hC in
theorem addStatement?_all {s : Stmt} {q : List Pending} (hp : AllPending E S pending) (hs : S s)
    (h : addStatement? s pending = some q) : AllPending E S q := by
  cases pending with
  | nil => cases h
  | cons p rest =>
    have hp' := hp.head
    cases p with
    | block l done =>
      cases h
      exact allPending_cons (all_append hp' hs) hp.tail
    | moduleBody l isPublic n done =>
      cases h
      exact allPending_cons (all_append hp' hs) hp.tail
    | program done =>
      cases h
      exact allPending_cons (all_append hp' hs) hp.tail
    | _ => cases h

omit hC in
theorem isDeclaration_of_blockFlaw {ss : List Stmt} (h : blockFlaw ss = none) :
    ∀ s ∈ ss, s.isDeclaration = false := by
  intro s hs
  have hnone := List.find?_eq_none.mp (Option.map_eq_none_iff.mp h) s hs
  simpa using hnone

theorem closeBody_all (hp : AllPending E S pending) (h : closeBody t pending = .ok r) :
    r.All E S L := by
  cases pending with
  | nil => cases h
  | cons p rest =>
    have hp' := hp.head
    cases p with
    | block l done =>
      cases h
      exact ⟨hp.tail, fun hf => hC.block l done (isDeclaration_of_blockFlaw hf) hp'⟩
    | moduleBody l isPublic n done =>
      cases h
      exact ⟨hp.tail, hC.module l isPublic n done hp'⟩
    | _ => cases h

theorem endStatement_all {c : Closer} {s : Stmt} (hp : AllPending E S pending) (hs : S s)
    (h : endStatement t c s pending = .ok r) : r.All E S L := by
  unfold endStatement at h
  cases ha : addStatement? s pending with
  | none =>
    rw [ha] at h
    cases h
  | some q =>
    rw [ha] at h
    have hq := addStatement?_all hp hs ha
    dsimp only at h
    split at h
    · exact closeBody_all hC hq h
    · cases h
      exact ⟨hq, trivial⟩

theorem close_all {c : Closer} (hp : AllPending E S pending) (he : E e)
    (h : close t c pending e = .ok r) : r.All E S L := by
  have hend : ∀ c,
      ((statement pending e).bind fun q => endStatement t c q.2 q.1) = .ok r → r.All E S L := by
    intro c h
    cases hs : statement pending e with
    | error f =>
      rw [hs] at h
      cases h
    | ok q =>
      rw [hs] at h
      obtain ⟨hq, hst⟩ := statement_all hC hp he hs
      exact endStatement_all hC hq hst h
  cases pending with
  | nil =>
    cases c with
    | separator => exact hend .separator h
    | rightBrace => exact hend .rightBrace h
    | _ => cases h
  | cons p rest =>
    have hrest := hp.tail
    have hbegun := hp.head
    cases c with
    | separator => exact hend .separator h
    | rightBrace => exact hend .rightBrace h
    | comma =>
      cases p with
      | arguments =>
        cases h
        exact ⟨allPending_cons ⟨hbegun.1, all_append hbegun.2 he⟩ hrest, trivial⟩
      | list =>
        cases h
        exact ⟨allPending_cons (all_append hbegun he) hrest, trivial⟩
      | _ => cases h
    | rightParen =>
      cases p with
      | group =>
        cases h
        exact ⟨hrest, fun _ => he⟩
      | arguments =>
        cases h
        exact ⟨hrest, fun _ => hC.applied _ _ hbegun.1 (all_append hbegun.2 he)⟩
      | _ => cases h
    | rightBracket =>
      cases p with
      | list =>
        cases h
        exact ⟨hrest, fun _ => hC.list _ _ (all_append hbegun he)⟩
      | rangeStop =>
        cases h
        exact ⟨hrest, fun _ => hC.range _ _ _ hbegun he⟩
      | iterable =>
        cases h
        exact ⟨hrest, fun _ => hC.comprehension _ _ _ _ none hbegun he fun _ hx => nomatch hx⟩
      | filter =>
        cases h
        refine ⟨hrest, fun _ => hC.comprehension _ _ _ _ (some e) hbegun.1 hbegun.2 ?_⟩
        rintro _ ⟨⟩
        exact he
      | _ => cases h
    | dots =>
      cases p with
      | list l done =>
        cases done with
        | nil =>
          cases h
          exact ⟨allPending_cons he hrest, trivial⟩
        | cons => cases h
      | _ => cases h
    | forWord =>
      cases p with
      | list l done =>
        cases done with
        | nil =>
          cases h
          exact ⟨hrest, he⟩
        | cons => cases h
      | _ => cases h
    | ifWord =>
      cases p with
      | iterable =>
        cases h
        exact ⟨allPending_cons ⟨hbegun, he⟩ hrest, trivial⟩
      | _ => cases h
    | thenWord =>
      cases p with
      | condition =>
        cases h
        exact ⟨allPending_cons he hrest, trivial⟩
      | guard =>
        cases h
        refine ⟨allPending_cons ⟨hbegun.1, hbegun.2, ?_⟩ hrest, trivial⟩
        rintro _ ⟨⟩
        exact he
      | _ => cases h
    | elseWord =>
      cases p with
      | consequence =>
        cases h
        exact ⟨allPending_cons ⟨hbegun, he⟩ hrest, trivial⟩
      | _ => cases h
    | bar =>
      cases p with
      | subject =>
        cases h
        exact ⟨hrest, he, fun _ ha => nomatch ha⟩
      | armBody =>
        cases h
        obtain ⟨hs, ha, hg⟩ := hbegun
        exact ⟨hrest, hs, all_append ha ⟨hg, he⟩⟩
      | _ => cases h

theorem continueWith_all {flaw : Option Report} (hp : AllPending E S pending)
    (he : flaw = none → E e) (h : continueWith t pending e flaw = .ok r) : r.All E S L := by
  unfold continueWith at h
  split at h
  · cases h
  · cases h
  · cases h
    exact ⟨allPending_cons ⟨he rfl, fun _ hx => by cases hx⟩ hp, trivial⟩
  · rename_i op _
    obtain ⟨hq, hs⟩ := settleOperators_all hC op.level hp (he rfl)
    cases h
    exact ⟨allPending_cons hs hq, trivial⟩
  · rename_i c _
    cases hs : settle (c == .bar) pending e with
    | error f =>
      rw [hs] at h
      cases h
    | ok q =>
      rw [hs] at h
      obtain ⟨hq, he'⟩ := settle_all hC _ hp (he rfl) hs
      exact close_all hC hq he' h

/-! ## Beginnings of constructs -/

theorem startOperand_all (hp : AllPending E S pending) (h : startOperand t pending = .ok r) :
    r.All E S L := by
  have hleaf : ∀ {e : Expr}, E e → (⟨pending, .more e none⟩ : Reader).All E S L :=
    fun he => ⟨hp, fun _ => he⟩
  have hpush : ∀ {p : Pending} {x : Expect}, p.All E S → x.All E S L →
      (⟨p :: pending, x⟩ : Reader).All E S L := fun hp' hx => ⟨allPending_cons hp' hp, hx⟩
  obtain ⟨kind, l⟩ := t
  cases kind with
  | identifier n =>
    cases h
    exact hleaf (hC.name l n)
  | dotted ns =>
    cases h
    exact hleaf (hC.dotted l ns)
  | number n =>
    cases h
    exact hleaf (hC.constant l _)
  | float x =>
    cases h
    exact hleaf (hC.constant l _)
  | string t =>
    cases h
    exact hleaf (hC.constant l _)
  | char c =>
    cases h
    exact hleaf (hC.constant l _)
  | keyword k =>
    cases k with
    | trueWord =>
      cases h
      exact hleaf (hC.constant l _)
    | falseWord =>
      cases h
      exact hleaf (hC.constant l _)
    | letWord =>
      cases h
      exact ⟨hp, trivial⟩
    | fnWord =>
      cases h
      exact ⟨hp, trivial⟩
    | ifWord =>
      cases h
      exact hpush trivial trivial
    | matchWord =>
      cases h
      exact hpush trivial trivial
    | _ => cases h
  | mark m =>
    cases m with
    | leftParen =>
      cases h
      exact hpush trivial trivial
    | leftBracket =>
      cases h
      exact hpush (fun _ hx => by cases hx) trivial
    | leftBrace =>
      cases h
      exact hpush (fun _ hx => by cases hx) trivial
    | minus =>
      cases h
      exact hpush trivial trivial
    | caret =>
      cases h
      exact hpush trivial trivial
    | dollar =>
      cases h
      exact hpush trivial trivial
    | _ => cases h
  | newline => cases h

theorem startOrClose_all (hp : AllPending E S pending) (h : startOrClose t pending = .ok r) :
    r.All E S L := by
  unfold startOrClose at h
  split at h
  · cases h
    exact ⟨hp.tail, fun _ => hC.unit _⟩
  · cases h
    exact ⟨hp.tail, fun _ => hC.applied _ _ hp.head.1 hp.head.2⟩
  · cases h
    exact ⟨hp.tail, fun _ => hC.list _ _ hp.head⟩
  · exact startOperand_all hC hp h

theorem startItem_all (hp : AllPending E S pending) (hl : L t.location)
    (h : startItem t pending = .ok r) : r.All E S L := by
  unfold startItem at h
  split at h
  · cases h
    exact ⟨hp, trivial⟩
  · cases h
    exact ⟨hp, trivial⟩
  · exact closeBody_all hC hp h
  · cases h
    exact ⟨hp, trivial⟩
  · cases h
    exact ⟨hp, trivial⟩
  · cases h
    exact ⟨hp, trivial⟩
  · cases h
    exact ⟨hp, hl⟩
  · exact startOperand_all hC hp h

theorem endItem_all {s : Stmt} (hp : AllPending E S pending) (hs : S s)
    (h : endItem t s pending = .ok r) : r.All E S L := by
  unfold endItem at h
  split at h
  · exact endStatement_all hC hp hs h
  · exact endStatement_all hC hp hs h
  · cases h

omit hC in
theorem Head.All.of_lengthens {h longer : Head} {k : Token.Kind} (hl : Lengthens h k longer)
    (hh : h.All E L) : longer.All E L := by
  cases hl with
  | importName | importComma | fromWord => exact hh
  | binder | forName => exact hh
  | _ => trivial

omit hC in
theorem Head.All.of_enters {h : Head} {k : Token.Kind} (he : Enters h k p) (hh : h.All E L) :
    p.All E S := by
  cases he with
  | armBody => exact ⟨hh.1, hh.2, fun _ hg => nomatch hg⟩
  | guard => exact hh
  | iterable => exact hh
  | _ => trivial

theorem advance_all {b : Head} (hp : AllPending E S pending) (hb : b.All E L)
    (h : advance t pending b = .ok r) : r.All E S L := by
  rcases advance_cases h with ⟨longer, hl, rfl⟩ | ⟨p, he, rfl⟩ | ⟨l, isPublic, n, -, -, rfl⟩ |
    ⟨l, ns, path, rfl, -, rfl⟩
  · exact ⟨hp, hb.of_lengthens hl⟩
  · exact ⟨allPending_cons (hb.of_enters he) hp, trivial⟩
  · exact ⟨allPending_cons (fun _ hs => nomatch hs) hp, trivial⟩
  · exact ⟨hp, hC.imports _ _ _ hb⟩

/-! ## Whole programs -/

theorem feed_all (hr : r.All E S L) (hl : L t.location) (h : r.feed t = .ok r') :
    r'.All E S L := by
  obtain ⟨pending, expect⟩ := r
  obtain ⟨hp, hx⟩ := hr
  cases expect with
  | item => exact startItem_all hC hp hl h
  | operand => exact startOperand_all hC hp h
  | operandOrClose => exact startOrClose_all hC hp h
  | more e flaw => exact continueWith_all hC hp hx h
  | ended s => exact endItem_all hC hp hx h
  | within b => exact advance_all hC hp hx h

theorem feedAll_all {ts : List Token} (hr : r.All E S L) (hl : ∀ t ∈ ts, L t.location)
    (h : r.feedAll ts = .ok r') : r'.All E S L := by
  induction ts generalizing r with
  | nil =>
    cases h
    exact hr
  | cons t ts ih =>
    unfold feedAll at h
    cases hf : r.feed t with
    | error f =>
      rw [hf] at h
      cases h
    | ok r₁ =>
      rw [hf] at h
      exact ih (feed_all hC hr (hl t (.head _)) hf) (fun u hu => hl u (.tail _ hu)) h

omit hC in
theorem whole_all {s : Stmt} {program : Program} (hp : AllPending E S pending) (hs : S s)
    (h : whole s pending = .ok program) : ∀ s ∈ program, S s := by
  unfold whole at h
  cases ha : addStatement? s pending with
  | none =>
    rw [ha] at h
    cases h
  | some q =>
    rw [ha] at h
    have hq := addStatement?_all hp hs ha
    split at h
    · rename_i he
      cases he
      cases h
      exact hq.head
    · cases h

theorem finish_all {program : Program} (hr : r.All E S L) (h : r.finish = .ok program) :
    ∀ s ∈ program, S s := by
  obtain ⟨pending, expect⟩ := r
  obtain ⟨hp, hx⟩ := hr
  unfold finish at h
  cases expect with
  | item =>
    dsimp only at h
    split at h
    · cases h
      exact hp.head
    · cases h
  | more e flaw =>
    cases flaw with
    | some f => cases h
    | none =>
      cases hs : settle false pending e with
      | error f =>
        simp only [hs] at h
        cases h
      | ok q =>
        simp only [hs] at h
        obtain ⟨hq, he⟩ := settle_all hC false hp (hx rfl) hs
        cases ht : statement q.1 q.2 with
        | error f =>
          simp only [bind, Except.bind, ht] at h
          cases h
        | ok u =>
          simp only [bind, Except.bind, ht] at h
          obtain ⟨hu, hst⟩ := statement_all hC hq he ht
          exact whole_all hu hst h
  | ended s => exact whole_all hp hx h
  | operand => cases h
  | operandOrClose => cases h
  | within b => cases h

omit hC in
theorem start_all : start.All E S L := by
  refine ⟨?_, trivial⟩
  intro p hp
  rw [List.mem_singleton.mp hp]
  exact fun _ hs => by cases hs

/-- What every construct of the grammar passes on holds of all statements of a program that is
read. -/
theorem readProgram_all {file source : Text} {program : Program}
    (hl : ∀ t ∈ (tokenize file source).1, L t.location)
    (h : readProgram file source = .ok program) : ∀ s ∈ program, S s := by
  unfold readProgram at h
  dsimp only at h
  cases hf : start.feedAll (tokenize file source).1 with
  | error f =>
    rw [hf] at h
    cases h
  | ok r =>
    rw [hf] at h
    cases hstop : (tokenize file source).2 with
    | some f =>
      rw [hstop] at h
      cases h
    | none =>
      rw [hstop] at h
      dsimp only at h
      cases hfin : r.finish with
      | error f =>
        rw [hfin] at h
        cases h
      | ok p =>
        rw [hfin] at h
        cases h
        exact finish_all hC (feedAll_all hC start_all hl hf) hfin

end Reader

end ModuleScript
