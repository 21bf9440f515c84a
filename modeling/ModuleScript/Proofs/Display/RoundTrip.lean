import Mathlib.Data.List.Forall2
import ModuleScript.Proofs.Congruence.Limits
import ModuleScript.Proofs.Display.Reading
import ModuleScript.Proofs.Sequences

/-!
# Displayed data as source

The nested form of a datum is the text of a program that evaluates to the datum, in every scope and
without a trace on the machine.
-/

set_option autoImplicit false

namespace ModuleScript

open Reader

/-! ## Evaluation -/

namespace Value

mutual

/-- How many levels of tasks the expression for a datum needs. -/
def height : Value → Nat
  | number (.int (.negSucc _)) => 2
  | list items => heights items + 1
  | _ => 1

def heights : List Value → Nat
  | [] => 0
  | v :: vs => max v.height (heights vs)

end

end Value

/-- Nodes lie at most so many levels below the nodes that lead to them, and so does a negation. -/
structure Host.Within (h : Host) (k : Nat) : Prop where
  node : ∀ a l b l', h.platform.between (.node a l) (.node b l') ≤ k
  negation : ∀ l s, h.platform.between (.node .unary l) (.meet (.unary .negate s)) ≤ k

theorem Host.within_usual {h : Host} {isStrict : Bool} (hp : h.platform = .usual isStrict) :
    h.Within 3 := by
  rw [show h = { h with platform := .usual isStrict } from hp ▸ rfl]
  have hbelow : ∀ a, Work.below a ≤ 3 := fun a => by cases a <;> decide
  exact ⟨fun a _ _ _ => hbelow a, fun _ _ => Nat.le_refl 3⟩

namespace Eval

/-- There are not more levels than these, with those that lie between them. -/
def Spans (h : Host) (height levels : Nat) : Prop := ∀ k, h.Within k → levels ≤ (k + 1) * height

/-- In every scope of every run that may go deep enough, the expression evaluates to the value and the
machine stays as it is. -/
def Evaluates (e : Expr) (height : Nat) (v : Value) : Prop :=
  ∀ h, ∃ least, Spans h height least ∧
    ∀ c m depth, least ≤ depth → run h depth (.eval c (.expr e)) m = .ok v m

variable {e : Expr} {n : Nat} {v : Value}

theorem evaluates_of_step (he : ∀ h, ∃ least, Spans h n (least + 1) ∧ ∀ c m depth, least ≤ depth →
    expr ((run h depth).below h (.node e.construct e.location)) c e m = .ok v m) :
    Evaluates e n v := by
  intro h
  obtain ⟨least, hleast, heval⟩ := he h
  refine ⟨least + 1, hleast, fun c m depth hd => ?_⟩
  cases depth with
  | zero => omega
  | succ depth => exact located_of_ok h e.location (heval c m depth (Nat.le_of_succ_le_succ hd))

theorem Evaluates.mono {k : Nat} (he : Evaluates e n v) (hn : n ≤ k) : Evaluates e k v := by
  intro h
  obtain ⟨least, hleast, heval⟩ := he h
  exact ⟨least, fun d hd => Nat.le_trans (hleast d hd) (Nat.mul_le_mul_left (d + 1) hn), heval⟩

/-- An expression inside another needs the levels between them too. -/
theorem Evaluates.below (he : Evaluates e n v) (h : Host) (a : Construct) (l : Location) :
    ∃ least, Spans h (n + 1) (least + 1) ∧ ∀ c m depth, least ≤ depth →
      ((run h depth).below h (.node a l)).expr c e m = .ok v m := by
  obtain ⟨least, hleast, heval⟩ := he h
  refine ⟨least + h.platform.between (.node a l) (.node e.construct e.location), fun k hk => ?_,
    fun c m depth hd => ?_⟩
  · have hall := hleast k hk
    have hbetween := hk.node a l e.construct e.location
    rw [Nat.mul_succ]
    omega
  · unfold Step.expr
    rw [below_run]
    exact heval c m _ (Nat.le_sub_of_add_le hd)

theorem spans_one {h : Host} : Spans h 1 1 := fun k _ => by
  rw [Nat.mul_one]
  exact Nat.succ_le_succ (Nat.zero_le k)

theorem evaluates_constant (l : Location) (k : Constant) :
    Evaluates (.constant l k) 1 (Value.ofConstant k) :=
  evaluates_of_step fun _ => ⟨0, spans_one, fun _ _ _ _ => rfl⟩

theorem evaluates_unit (l : Location) : Evaluates (.unit l) 1 .unit :=
  evaluates_of_step fun _ => ⟨0, spans_one, fun _ _ _ _ => rfl⟩

theorem evaluates_negative (l l' : Location) (n : Nat) :
    Evaluates (.unary l .negate (.constant l' (.number (.int (n + 1 : Nat))))) 2
      (.number (.int (.negSucc n))) := by
  refine evaluates_of_step fun h => ?_
  let operand : Value := .number (.int (n + 1 : Nat))
  let self (depth : Nat) : Step := (run h depth).below h (.node .unary l)
  obtain ⟨least, hleast, heval⟩ :=
    (evaluates_constant l' (.number (.int (n + 1 : Nat)))).below h .unary l
  -- besides the levels that the operand takes there are those of the negation
  refine ⟨max least (h.platform.between (.node .unary l)
    (.meet (.unary .negate operand.shape)) + 1), fun k hk => ?_, fun c m depth hd => ?_⟩
  · have hoperand := hleast k hk
    have hnegation := hk.negation l operand.shape
    omega
  · have hoperand : (self depth).expr c (.constant l' (.number (.int (n + 1 : Nat)))) m =
        .ok operand m := heval c m depth (Nat.le_trans (Nat.le_max_left _ _) hd)
    have hask : (self depth).ask (.unary .negate operand.shape) m = .ok ⟨⟩ m := by
      have hrest := Nat.le_sub_of_add_le' (Nat.le_trans (Nat.le_max_right _ _) hd)
      obtain ⟨rest, hrest⟩ := Nat.exists_eq_add_of_le' hrest
      rw [ask_below_run, hrest, ask_run_succ]
      rfl
    change ((self depth).expr c _ >>= fun v => (self depth).ask (.unary .negate v.shape) >>=
      fun _ => lift (Value.unary .negate v)) m = _
    rw [bind_of_ok hoperand, bind_of_ok hask]
    rfl

theorem exprs_evaluates {es : List Expr} {vs : List Value}
    (hall : List.Forall₂ (Evaluates · n) es vs) (h : Host) (a : Construct) (l : Location) :
    ∃ least, Spans h (n + 1) (least + 1) ∧ ∀ c m depth, least ≤ depth →
      ((run h depth).below h (.node a l)).exprs c es m = .ok vs m := by
  unfold Step.exprs
  induction hall with
  | nil =>
    refine ⟨0, fun k _ => ?_, fun _ _ _ _ => rfl⟩
    rw [Nat.mul_succ]
    omega
  | @cons e v es vs he _ ih =>
    obtain ⟨first, hfirst, heval⟩ := he.below h a l
    obtain ⟨rest, hrest, hevals⟩ := ih
    refine ⟨max first rest, fun k hk => ?_, fun c m depth hd => ?_⟩
    · have hone := hfirst k hk
      have hall := hrest k hk
      omega
    · rw [List.mapM_cons, bind_of_ok (heval c m depth (Nat.le_trans (Nat.le_max_left _ _) hd)),
        bind_of_ok (hevals c m depth (Nat.le_trans (Nat.le_max_right _ _) hd))]
      rfl

theorem evaluates_list (l : Location) {es : List Expr} {vs : List Value}
    (hall : List.Forall₂ (Evaluates · n) es vs) :
    Evaluates (.list l es) (n + 1) (Value.ofItems vs) := by
  refine evaluates_of_step fun h => ?_
  obtain ⟨least, hleast, hevals⟩ := exprs_evaluates hall h .list l
  refine ⟨least, hleast, fun c m depth hd => ?_⟩
  change (((run h depth).below h (.node .list l)).exprs c es >>= fun vs =>
    pure (Value.ofItems vs)) m = _
  rw [bind_of_ok (hevals c m depth hd)]
  rfl

end Eval

/-! ## Data -/

namespace Value

open Eval

/-- The tokens of a datum are read as an expression that evaluates to the datum. -/
def Readable (v : Value) : Prop :=
  ∀ ts : List Token, ts.map Token.kind = v.kinds → ∃ e, Yields ts e ∧ Evaluates e v.height v

theorem readable_constant {v : Value} {k : Token.Kind} {a : Constant} (hk : v.kinds = [k])
    (hv : v = ofConstant a) (hh : v.height = 1)
    (hs : ∀ l pending, startOperand ⟨k, l⟩ pending = .ok ⟨pending, .more (.constant l a) none⟩) :
    Readable v := by
  intro ts hts
  rw [hk] at hts
  obtain ⟨t, rfl, rfl⟩ := List.map_eq_singleton_iff.mp hts
  refine ⟨.constant t.location a, yields_leaf (hs t.location), ?_⟩
  rw [hh, hv]
  exact evaluates_constant t.location a

theorem readable_negative (n : Nat) : Readable (.number (.int (.negSucc n))) := by
  intro ts hts
  obtain ⟨t, us, rfl, ht, hus⟩ := List.map_eq_cons_iff.mp hts
  obtain ⟨u, rfl, hu⟩ := List.map_eq_singleton_iff.mp hus
  exact ⟨_, yields_negative ht hu, evaluates_negative t.location u.location n⟩

theorem readable_unit : Readable .unit := by
  intro ts hts
  obtain ⟨t, us, rfl, ht, hus⟩ := List.map_eq_cons_iff.mp hts
  obtain ⟨u, rfl, hu⟩ := List.map_eq_singleton_iff.mp hus
  exact ⟨_, yields_unit ht hu, evaluates_unit t.location⟩

theorem readable_items {v : Value} {vs : List Value} (h : ∀ u ∈ v :: vs, Readable u)
    {ts : List Token} (hts : ts.map Token.kind = itemKinds (v :: vs)) {b : Token}
    (hb : b.kind = .mark .rightBracket) :
    ∃ es, List.Forall₂ (Evaluates · (heights (v :: vs))) es (v :: vs) ∧
      ∀ l done pending, feedAll ⟨.list l done :: pending, .operand⟩ (ts ++ [b]) =
        .ok ⟨pending, .more (.list l (done ++ es)) none⟩ := by
  have hbracket : follower? b.kind = some (.closer .rightBracket) := by
    rw [hb]
    rfl
  induction vs generalizing v ts with
  | nil =>
    obtain ⟨e, hyields, heval⟩ := h v (.head _) ts hts
    refine ⟨[e], .cons (heval.mono ?_) .nil, fun l done pending => ?_⟩
    · exact Nat.le_max_left _ _
    · exact hyields.close hbracket rfl
  | cons w vs ih =>
    obtain ⟨us, rest, rfl, hus, hrest⟩ := List.map_eq_append_iff.mp hts
    obtain ⟨comma, rest, rfl, hcomma, hrest⟩ := List.map_eq_cons_iff.mp hrest
    have hfollows : follower? comma.kind = some (.closer .comma) := by
      rw [hcomma]
      rfl
    obtain ⟨e, hyields, heval⟩ := h v (.head _) us hus
    obtain ⟨es, hall, hfeed⟩ := ih (fun u hu => h u (.tail _ hu)) hrest
    refine ⟨e :: es, .cons (heval.mono ?_) (hall.imp ?_), fun l done pending => ?_⟩
    · exact Nat.le_max_left _ _
    · exact fun e u he => he.mono (Nat.le_max_right _ _)
    · have hfirst : feedAll ⟨.list l done :: pending, .operand⟩ (us ++ [comma]) =
          .ok ⟨.list l (done ++ [e]) :: pending, .operand⟩ := hyields.close hfollows rfl
      rw [List.append_assoc, List.cons_append, List.append_cons us, feedAll_append, hfirst]
      change feedAll ⟨.list l (done ++ [e]) :: pending, .operand⟩ (rest ++ [b]) = _
      rw [hfeed, List.append_assoc]
      rfl

theorem itemKinds_cons (v : Value) (vs : List Value) :
    ∃ ks, itemKinds (v :: vs) = v.kinds ++ ks := by
  cases vs with
  | nil => exact ⟨[], (List.append_nil _).symm⟩
  | cons w vs => exact ⟨.mark .comma :: itemKinds (w :: vs), rfl⟩

theorem readable_list {items : List Value} (hdata : ∀ v ∈ items, IsData v)
    (hchars : items ≠ [] → ∃ v ∈ items, ∀ c, v ≠ .char c) (h : ∀ v ∈ items, Readable v) :
    Readable (.list items) := by
  intro ts hts
  obtain ⟨t, us, rfl, ht, hus⟩ := List.map_eq_cons_iff.mp hts
  obtain ⟨inner, bs, rfl, hinner, hbs⟩ := List.map_eq_append_iff.mp hus
  obtain ⟨b, rfl, hb⟩ := List.map_eq_singleton_iff.mp hbs
  have hopen : ∀ pending, feed ⟨pending, .operand⟩ t =
      .ok ⟨.list t.location [] :: pending, .operandOrClose⟩ := by
    obtain ⟨_, l⟩ := t
    cases ht
    exact fun pending => rfl
  have hlist : ∃ es, List.Forall₂ (Evaluates · (heights items)) es items ∧
      ∀ pending, feedAll ⟨.list t.location [] :: pending, .operandOrClose⟩ (inner ++ [b]) =
        .ok ⟨pending, .more (.list t.location es) none⟩ := by
    cases items with
    | nil =>
      cases List.map_eq_nil_iff.mp hinner
      refine ⟨[], .nil, fun pending => ?_⟩
      obtain ⟨_, l⟩ := b
      cases hb
      rfl
    | cons v vs =>
      obtain ⟨es, hall, hfeed⟩ := readable_items h hinner hb
      refine ⟨es, hall, fun pending => ?_⟩
      obtain ⟨k, ks, hk, hopens⟩ := (hdata v (.head _)).opens
      obtain ⟨ks', hks⟩ := itemKinds_cons v vs
      have hbegins : (inner ++ [b]).map Token.kind = k :: (ks ++ ks' ++ [b.kind]) := by
        rw [List.map_append, hinner, hks, hk]
        rfl
      rw [feedAll_operandOrClose hopens hbegins]
      exact hfeed t.location [] pending
  obtain ⟨es, hall, hfeed⟩ := hlist
  refine ⟨.list t.location es, fun pending => ⟨[], .list t.location es, ?_, fun _ => rfl⟩, ?_⟩
  · change (feed ⟨pending, .operand⟩ t).bind (·.feedAll (inner ++ [b])) = _
    rw [hopen pending]
    exact hfeed pending
  · have heval := evaluates_list t.location hall
    rw [ofItems_eq_list hchars] at heval
    exact heval

theorem IsData.readable {v : Value} (h : IsData v) : Readable v := by
  induction h with
  | @int i hi =>
    cases i with
    | ofNat n =>
      exact readable_constant (a := .number (.int n)) rfl rfl rfl fun _ _ => rfl
    | negSucc n => exact readable_negative n
  | text t => exact readable_constant (a := .string t) rfl rfl rfl fun _ _ => rfl
  | char c => exact readable_constant (a := .char c) rfl rfl rfl fun _ _ => rfl
  | bool b =>
    cases b with
    | true => exact readable_constant (a := .bool true) rfl rfl rfl fun _ _ => rfl
    | false => exact readable_constant (a := .bool false) rfl rfl rfl fun _ _ => rfl
  | unit => exact readable_unit
  | list hdata hchars ih => exact readable_list hdata hchars ih

end Value

/-! ## Round trip -/

namespace Display

open Eval

/-- In every scope the program evaluates to the value unless the run is cut short, and there are levels
enough not to cut it short. -/
def Restores (h : Host) (program : Program) (v : Value) : Prop :=
  ∃ least, Spans h v.height least ∧ ∀ c m depth,
    (least ≤ depth → (run h depth).stmts c program m = .ok v m) ∧
      ((run h depth).stmts c program m = .ok v m ∨
        ∃ k, (run h depth).stmts c program m = .error .tooDeep k)

/-- What a program comes to with enough levels it comes to with fewer, unless it is cut short. -/
theorem restores_of_evaluates {h : Host} {program : Program} {v : Value}
    (he : ∃ least, Spans h v.height least ∧
      ∀ c m depth, least ≤ depth → (run h depth).stmts c program m = .ok v m) :
    Restores h program v := by
  obtain ⟨least, hleast, heval⟩ := he
  refine ⟨least, hleast, fun c m depth => ⟨heval c m depth, ?_⟩⟩
  have hcut := Congruence.stmts (C := Limits.cutting)
    (Limits.run_cut h (Nat.le_max_left depth least)) c program
  rcases hcut m with he | ⟨e, k, rfl, he⟩
  · rw [he]
    exact .inl (heval c m _ (Nat.le_max_right depth least))
  · exact .inr ⟨k, he⟩

/-- The nested form of a datum exists, is the text of a program in every source, and the program
evaluates to the datum in every scope of every run that may go deep enough. -/
theorem nested_reads_back {v : Value} (hv : v.IsData) :
    ∃ t, v.nested = .ok t ∧ ∀ file, ∃ program, readProgram file t = .ok program ∧
      ∀ h, Restores h program v := by
  obtain ⟨t, hnested, hscans⟩ := hv.scannable
  refine ⟨t, hnested, fun file => ?_⟩
  have hend : Scan.Delimited [] := by
    rintro c ⟨⟩
  obtain ⟨ts, htokens, hkinds⟩ :=
    tokenize_of_scans (hscans [] hend) (Value.newline_notMem_kinds v) file
  obtain ⟨k, ks, hk, hopens⟩ := hv.opens
  obtain ⟨e, hyields, heval⟩ := hv.readable ts hkinds
  obtain ⟨opened, e', hfeed, hsettle⟩ := hyields [.program []]
  refine ⟨[.expr e], ?_, fun h => restores_of_evaluates ?_⟩
  · have hstart : Reader.start.feedAll ts = .ok ⟨opened ++ [.program []], .more e' none⟩ := by
      have hitem : feedAll ⟨[.program []], .item⟩ ts = feedAll ⟨[.program []], .operand⟩ ts :=
        feedAll_item hopens (hkinds.trans hk)
      exact hitem.trans hfeed
    have hfinish : finish ⟨opened ++ [.program []], .more e' none⟩ = .ok [.expr e] := by
      change ((settle false (opened ++ [.program []]) e').bind fun p =>
        (statement p.1 p.2).bind fun q => whole q.2 q.1) = _
      rw [hsettle]
      rfl
    unfold readProgram
    rw [htokens]
    dsimp only
    rw [hstart]
    dsimp only
    rw [hfinish]
    rfl
  · obtain ⟨least, hleast, heval⟩ := heval h
    refine ⟨least, hleast, fun c m depth hd => ?_⟩
    change (run h depth (.eval c (.expr e)) >>= pure) m = _
    rw [bind_of_ok (heval c m depth hd)]
    rfl

theorem nested_reads_back_negative :
    let v : Value := .list [.int (-5), .text "a\"", .char '\'', .list [], .unit]
    v.IsData ∧ ∃ t, v.nested = .ok t ∧ ∀ file, ∃ program, readProgram file t = .ok program ∧
      ∀ h, Restores h program v := by
  have hint : Decimal.writable (-5) = true := Decimal.writable_of_le (by decide)
  have hdata : (Value.list [.int (-5), .text "a\"", .char '\'', .list [], .unit]).IsData := by
    refine .list (fun v hv => ?_) fun _ => ⟨.unit, by simp, fun c hc => by cases hc⟩
    simp only [List.mem_cons, List.not_mem_nil, or_false] at hv
    rcases hv with rfl | rfl | rfl | rfl | rfl
    · exact .int hint
    · exact .text _
    · exact .char _
    · exact .list (fun _ h => by cases h) fun h => absurd rfl h
    · exact .unit
  exact ⟨hdata, nested_reads_back hdata⟩

end Display

end ModuleScript
