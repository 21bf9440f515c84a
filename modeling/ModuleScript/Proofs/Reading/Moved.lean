import ModuleScript.Proofs.Reading.Feeding

/-!
# Programs at another place

A reader never looks at a location. So from tokens that are moved the same program is read, with all
its nodes moved the same way.
-/

set_option autoImplicit false

namespace ModuleScript

variable (f : Location → Location)

/-! ## Moved trees -/

mutual

/-- The tree with all its locations moved. -/
def Expr.moved : Expr → Expr
  | .constant l c => .constant (f l) c
  | .unit l => .unit (f l)
  | .name l n => .name (f l) n
  | .dotted l names => .dotted (f l) names
  | .list l es => .list (f l) (Expr.movedAll es)
  | .range l a b => .range (f l) a.moved b.moved
  | .comprehension l e x b c => .comprehension (f l) e.moved x b.moved (Expr.movedOption c)
  | .unary l op e => .unary (f l) op e.moved
  | .binary l op a b => .binary (f l) op a.moved b.moved
  | .binding l n e => .binding (f l) n e.moved
  | .lambda l n ps e => .lambda (f l) n ps e.moved
  | .call l g es => .call (f l) g.moved (Expr.movedAll es)
  | .cond l a b c => .cond (f l) a.moved b.moved c.moved
  | .select l e arms => .select (f l) e.moved (Arm.movedAll arms)
  | .block l ss => .block (f l) (Stmt.movedAll ss)
  | .sequence l es => .sequence (f l) (Expr.movedAll es)

def Expr.movedAll : List Expr → List Expr
  | [] => []
  | e :: es => e.moved :: Expr.movedAll es

def Expr.movedOption : Option Expr → Option Expr
  | none => none
  | some e => some e.moved

def Arm.moved : Arm → Arm
  | .mk l x guard e => .mk (f l) x (Expr.movedOption guard) e.moved

def Arm.movedAll : List Arm → List Arm
  | [] => []
  | a :: arms => a.moved :: Arm.movedAll arms

def Stmt.moved : Stmt → Stmt
  | .expr e => .expr e.moved
  | .publicBinding l n e => .publicBinding (f l) n e.moved
  | .variation l n l' ps e => .variation (f l) n (f l') ps e.moved
  | .module l isPublic n ss => .module (f l) isPublic n (Stmt.movedAll ss)
  | .imports l ns path => .imports (f l) ns path

def Stmt.movedAll : List Stmt → List Stmt
  | [] => []
  | s :: ss => s.moved :: Stmt.movedAll ss

end

def Program.moved (p : Program) : Program := p.map (Stmt.moved f)

namespace Expr

@[simp] theorem movedAll_eq_map (es : List Expr) : movedAll f es = es.map (moved f) := by
  induction es with
  | nil => rfl
  | cons e es ih => rw [movedAll, ih, List.map_cons]

@[simp] theorem movedOption_eq_map (o : Option Expr) : movedOption f o = o.map (moved f) := by
  cases o <;> rfl

@[simp] theorem location_moved (e : Expr) : (e.moved f).location = f e.location := by
  cases e <;> rfl

@[simp] theorem moved_named (n : Ident) (e : Expr) :
    (e.named n).moved f = (e.moved f).named n := by
  cases e with
  | lambda l o ps body => cases o <;> rfl
  | _ => rfl

@[simp] theorem moved_applied (g : Expr) (es : List Expr) :
    (g.applied es).moved f = (g.moved f).applied (es.map (moved f)) := by
  cases g with
  | name l n =>
    cases es with
    | nil => rfl
    | cons e es =>
      cases es with
      | cons e' es => simp [applied, moved, location]
      | nil =>
        cases e with
        | list l' elements =>
          by_cases hn : n = "seq"
          · simp [applied, hn, moved]
          · simp [applied, hn, moved]
        | _ => simp [applied, moved, location]
  | _ => simp [applied, moved, location]

end Expr

@[simp] theorem Arm.movedAll_eq_map (arms : List Arm) : movedAll f arms = arms.map (moved f) := by
  induction arms with
  | nil => rfl
  | cons a arms ih => rw [movedAll, ih, List.map_cons]

namespace Stmt

@[simp] theorem movedAll_eq_map (ss : List Stmt) : movedAll f ss = ss.map (moved f) := by
  induction ss with
  | nil => rfl
  | cons s ss ih => rw [movedAll, ih, List.map_cons]

@[simp] theorem location_moved (s : Stmt) : (s.moved f).location = f s.location := by
  cases s with
  | expr e => exact e.location_moved f
  | _ => rfl

@[simp] theorem isDeclaration_moved (s : Stmt) : (s.moved f).isDeclaration = s.isDeclaration := by
  cases s <;> rfl

end Stmt

/-! ## Moved readers -/

def Token.moved (t : Token) : Token := ⟨t.kind, f t.location⟩

def Report.moved (r : Report) : Report := { r with location := r.location.map f }

namespace Reader

/-- The construct with all its locations moved. -/
def Pending.moved : Pending → Pending
  | .unary l op => .unary (f l) op
  | .binary l op left => .binary (f l) op (left.moved f)
  | .binding l n => .binding (f l) n
  | .lambda l ps => .lambda (f l) ps
  | .otherwise l a b => .otherwise (f l) (a.moved f) (b.moved f)
  | .armBody l e arms l' x o =>
    .armBody (f l) (e.moved f) (arms.map (Arm.moved f)) (f l') x (o.map (Expr.moved f))
  | .publicBinding l n => .publicBinding (f l) n
  | .variation l n => .variation (f l) n
  | .condition l => .condition (f l)
  | .consequence l a => .consequence (f l) (a.moved f)
  | .subject l => .subject (f l)
  | .guard l e arms l' x => .guard (f l) (e.moved f) (arms.map (Arm.moved f)) (f l') x
  | .group l => .group (f l)
  | .arguments g done => .arguments (g.moved f) (done.map (Expr.moved f))
  | .list l done => .list (f l) (done.map (Expr.moved f))
  | .rangeStop l a => .rangeStop (f l) (a.moved f)
  | .iterable l e x => .iterable (f l) (e.moved f) x
  | .filter l e x b => .filter (f l) (e.moved f) x (b.moved f)
  | .block l done => .block (f l) (done.map (Stmt.moved f))
  | .moduleBody l isPublic n done => .moduleBody (f l) isPublic n (done.map (Stmt.moved f))
  | .program done => .program (done.map (Stmt.moved f))

def Head.moved : Head → Head
  | .pubWord l => .pubWord (f l)
  | .letWord l isPublic => .letWord (f l) isPublic
  | .letName l isPublic n => .letName (f l) isPublic n
  | .varWord l => .varWord (f l)
  | .varName l n => .varName (f l) n
  | .modWord l isPublic => .modWord (f l) isPublic
  | .modName l isPublic n => .modName (f l) isPublic n
  | .impWord l ns => .impWord (f l) ns
  | .impName l ns => .impName (f l) ns
  | .fromWord l ns => .fromWord (f l) ns
  | .fnWord l => .fnWord (f l)
  | .fnParen l => .fnParen (f l)
  | .fnComma l ps => .fnComma (f l) ps
  | .fnParam l ps => .fnParam (f l) ps
  | .fnParams l ps => .fnParams (f l) ps
  | .bar l e arms l' => .bar (f l) (e.moved f) (arms.map (Arm.moved f)) (f l')
  | .binder l e arms l' x => .binder (f l) (e.moved f) (arms.map (Arm.moved f)) (f l') x
  | .forWord l e => .forWord (f l) (e.moved f)
  | .forName l e x => .forName (f l) (e.moved f) x

def Expect.moved : Expect → Expect
  | .item => .item
  | .operand => .operand
  | .operandOrClose => .operandOrClose
  | .more e flaw => .more (e.moved f) (flaw.map (Report.moved f))
  | .ended s => .ended (s.moved f)
  | .within h => .within (h.moved f)

def moved (r : Reader) : Reader := ⟨r.pending.map (Pending.moved f), r.expect.moved f⟩

variable {pending : List Pending} {e : Expr} {t : Token} {r r' : Reader}

theorem settleOperators_moved (level : Nat) (pending : List Pending) (e : Expr) :
    settleOperators level (pending.map (Pending.moved f)) (e.moved f) =
      ((settleOperators level pending e).1.map (Pending.moved f),
        (settleOperators level pending e).2.moved f) := by
  induction pending generalizing e with
  | nil => rfl
  | cons p rest ih =>
    cases p with
    | unary l op => exact ih (.unary l op e)
    | binary l op left =>
      simp only [List.map_cons, Pending.moved, settleOperators]
      split
      · exact ih (.binary l op left e)
      · rfl
    | _ => rfl

theorem settle_moved (atBar : Bool) {q : List Pending × Expr}
    (h : settle atBar pending e = .ok q) :
    settle atBar (pending.map (Pending.moved f)) (e.moved f) =
      .ok (q.1.map (Pending.moved f), q.2.moved f) := by
  induction pending generalizing e with
  | nil =>
    cases h
    rfl
  | cons p rest ih =>
    cases p with
    | unary l op => exact ih h
    | binary l op left => exact ih h
    | binding l n =>
      have hrest := ih h
      simp only [Expr.moved, Expr.moved_named] at hrest
      exact hrest
    | lambda l ps =>
      unfold settle at h
      split at h
      · rename_i hps
        simp only [List.map_cons, Pending.moved, settle, if_pos hps]
        exact ih h
      · cases h
    | otherwise l a b => exact ih h
    | armBody l subject arms l' x o =>
      cases atBar with
      | true =>
        cases h
        rfl
      | false =>
        have hrest := ih h
        simp only [Expr.moved, Arm.movedAll_eq_map, List.map_append, List.map_cons, List.map_nil,
          Arm.moved, Expr.movedOption_eq_map] at hrest
        exact hrest
    | _ =>
      cases h
      rfl

theorem statement_moved {q : List Pending × Stmt} (h : statement pending e = .ok q) :
    statement (pending.map (Pending.moved f)) (e.moved f) =
      .ok (q.1.map (Pending.moved f), q.2.moved f) := by
  have hplain : ∀ q, (.ok (pending, .expr e) : Except Report (List Pending × Stmt)) = .ok q →
      (.ok (pending.map (Pending.moved f), .expr (e.moved f)) :
        Except Report (List Pending × Stmt)) = .ok (q.1.map (Pending.moved f), q.2.moved f) := by
    rintro q ⟨⟩
    rfl
  cases pending with
  | nil => exact hplain q h
  | cons p rest =>
    cases p with
    | publicBinding l n =>
      cases h
      simp only [List.map_cons, Pending.moved, statement, Stmt.moved, Expr.moved_named]
    | variation l n =>
      cases e with
      | lambda l' o ps body =>
        cases h
        rfl
      | _ => cases h
    | _ => exact hplain q h

theorem addStatement?_moved (s : Stmt) (pending : List Pending) :
    addStatement? (s.moved f) (pending.map (Pending.moved f)) =
      (addStatement? s pending).map (·.map (Pending.moved f)) := by
  cases pending with
  | nil => rfl
  | cons p rest =>
    cases p with
    | block | moduleBody | program => simp [addStatement?, Pending.moved]
    | _ => rfl

theorem blockFlaw_moved (ss : List Stmt) :
    blockFlaw (ss.map (Stmt.moved f)) = (blockFlaw ss).map (Report.moved f) := by
  have hdeclaration : Stmt.isDeclaration ∘ Stmt.moved f = Stmt.isDeclaration :=
    funext fun s => s.isDeclaration_moved f
  unfold blockFlaw
  rw [List.find?_map, hdeclaration, Option.map_map, Option.map_map]
  congr 1
  funext s
  simp [Report.moved, Cause.reportAt]

theorem closeBody_moved (h : closeBody t pending = .ok r) :
    closeBody (t.moved f) (pending.map (Pending.moved f)) = .ok (r.moved f) := by
  cases pending with
  | nil => cases h
  | cons p rest =>
    cases p with
    | block l done =>
      cases h
      simp only [List.map_cons, Pending.moved, closeBody, blockFlaw_moved, moved, Expect.moved,
        Expr.moved, Stmt.movedAll_eq_map]
    | moduleBody l isPublic n done =>
      cases h
      simp only [List.map_cons, Pending.moved, closeBody, moved, Expect.moved, Stmt.moved,
        Stmt.movedAll_eq_map]
    | _ => cases h

theorem endStatement_moved {c : Closer} {s : Stmt} (h : endStatement t c s pending = .ok r) :
    endStatement (t.moved f) c (s.moved f) (pending.map (Pending.moved f)) = .ok (r.moved f) := by
  unfold endStatement at h ⊢
  rw [addStatement?_moved]
  cases hadd : addStatement? s pending with
  | none =>
    rw [hadd] at h
    cases h
  | some pending' =>
    rw [hadd] at h
    dsimp only [Option.map_some] at h ⊢
    split at h
    · rename_i hc
      rw [if_pos hc]
      exact closeBody_moved f h
    · rename_i hc
      cases h
      rw [if_neg hc]
      rfl

theorem closeStatement_moved {c : Closer}
    (h : (statement pending e).bind (fun q => endStatement t c q.2 q.1) = .ok r) :
    (statement (pending.map (Pending.moved f)) (e.moved f)).bind
      (fun q => endStatement (t.moved f) c q.2 q.1) = .ok (r.moved f) := by
  obtain ⟨q, hq, hend⟩ := exists_of_bind_eq_ok h
  rw [statement_moved f hq]
  exact endStatement_moved f hend

theorem close_moved {c : Closer} (h : close t c pending e = .ok r) :
    close (t.moved f) c (pending.map (Pending.moved f)) (e.moved f) = .ok (r.moved f) := by
  cases c with
  | separator => exact closeStatement_moved f h
  | rightBrace => exact closeStatement_moved f h
  | _ =>
    -- one case for each construct that the token goes on with or ends
    unfold close at h
    split at h <;> first
      | contradiction
      | (cases h
         simp [Pending.moved, close, moved, Expect.moved, Head.moved, Expr.moved, Arm.moved,
           Token.moved])

theorem continueWith_moved {flaw : Option Report} (h : continueWith t pending e flaw = .ok r) :
    continueWith (t.moved f) (pending.map (Pending.moved f)) (e.moved f)
      (flaw.map (Report.moved f)) = .ok (r.moved f) := by
  have hkind : (t.moved f).kind = t.kind := rfl
  unfold continueWith at h ⊢
  rw [hkind]
  cases hf : follower? t.kind with
  | none =>
    rw [hf] at h
    cases h
  | some follower =>
    rw [hf] at h
    cases flaw with
    | some flaw => cases h
    | none =>
      cases follower with
      | arguments =>
        cases h
        rfl
      | operator op =>
        cases h
        dsimp only [Option.map_none]
        rw [settleOperators_moved]
        rfl
      | closer c =>
        obtain ⟨q, hq, hclose⟩ := exists_of_bind_eq_ok h
        change (settle (c == .bar) _ _).bind _ = _
        rw [settle_moved f _ hq]
        exact close_moved f hclose

theorem startOperand_moved (h : startOperand t pending = .ok r) :
    startOperand (t.moved f) (pending.map (Pending.moved f)) = .ok (r.moved f) := by
  obtain ⟨k, l⟩ := t
  cases k with
  | keyword k =>
    cases k <;> cases h <;> rfl
  | mark m =>
    cases m <;> cases h <;> rfl
  | newline => cases h
  | _ =>
    cases h
    rfl

theorem startOrClose_moved (h : startOrClose t pending = .ok r) :
    startOrClose (t.moved f) (pending.map (Pending.moved f)) = .ok (r.moved f) := by
  have hoperand : startOperand t pending = .ok r → _ := startOperand_moved f
  obtain ⟨k, l⟩ := t
  cases k with
  | mark m =>
    cases m with
    | rightParen | rightBracket =>
      cases pending with
      | nil => cases h
      | cons p rest =>
        cases p <;> first
          | contradiction
          | (cases h
             simp [Pending.moved, startOrClose, moved, Expect.moved, Expr.moved, Token.moved])
    | _ => exact hoperand h
  | keyword k => cases k <;> exact hoperand h
  | _ => exact hoperand h

theorem startItem_moved (h : startItem t pending = .ok r) :
    startItem (t.moved f) (pending.map (Pending.moved f)) = .ok (r.moved f) := by
  have hoperand : startOperand t pending = .ok r → _ := startOperand_moved f
  have hbody : closeBody t pending = .ok r → _ := closeBody_moved f
  obtain ⟨k, l⟩ := t
  cases k with
  | newline =>
    cases h
    rfl
  | mark m =>
    cases m with
    | semicolon =>
      cases h
      rfl
    | rightBrace => exact hbody h
    | _ => exact hoperand h
  | keyword k =>
    cases k with
    | pubWord | varWord | modWord | impWord =>
      cases h
      rfl
    | _ => exact hoperand h
  | _ => exact hoperand h

theorem endItem_moved {s : Stmt} (h : endItem t s pending = .ok r) :
    endItem (t.moved f) (s.moved f) (pending.map (Pending.moved f)) = .ok (r.moved f) := by
  have hkind : (t.moved f).kind = t.kind := rfl
  unfold endItem at h ⊢
  rw [hkind]
  split at h
  · exact endStatement_moved f h
  · exact endStatement_moved f h
  · cases h

theorem advance_moved {head : Head} (h : advance t pending head = .ok r) :
    advance (t.moved f) (pending.map (Pending.moved f)) (head.moved f) = .ok (r.moved f) := by
  obtain ⟨k, l⟩ := t
  unfold advance at h
  dsimp only at h
  split at h <;> cases h <;> rfl

theorem feed_moved (h : r.feed t = .ok r') : (r.moved f).feed (t.moved f) = .ok (r'.moved f) := by
  obtain ⟨pending, x⟩ := r
  cases x with
  | item => exact startItem_moved f h
  | operand => exact startOperand_moved f h
  | operandOrClose => exact startOrClose_moved f h
  | more e flaw => exact continueWith_moved f h
  | ended s => exact endItem_moved f h
  | within head => exact advance_moved f h

theorem feedAll_moved {ts : List Token} (h : r.feedAll ts = .ok r') :
    (r.moved f).feedAll (ts.map (Token.moved f)) = .ok (r'.moved f) := by
  induction ts generalizing r with
  | nil =>
    cases h
    rfl
  | cons t ts ih =>
    obtain ⟨r₁, hfeed, hrest⟩ := exists_of_bind_eq_ok h
    change ((r.moved f).feed (t.moved f)).bind _ = _
    rw [feed_moved f hfeed]
    exact ih hrest

theorem whole_moved {s : Stmt} {p : Program} (h : whole s pending = .ok p) :
    whole (s.moved f) (pending.map (Pending.moved f)) = .ok (p.moved f) := by
  unfold whole at h ⊢
  rw [addStatement?_moved]
  split at h
  · rename_i done hadd
    cases h
    rw [hadd]
    rfl
  · cases h

theorem finish_more (pending : List Pending) (e : Expr) :
    finish ⟨pending, .more e none⟩ = (settle false pending e).bind fun q =>
      (statement q.1 q.2).bind fun u => whole u.2 u.1 := rfl

/-- Between statements a program may end unless something around them has not. -/
theorem finish_item {p : Program} :
    finish ⟨pending, .item⟩ = .ok p ↔ pending = [.program p] := by
  constructor
  · intro h
    unfold finish at h
    dsimp only at h
    split at h
    · cases h
      rfl
    · cases h
  · rintro rfl
    rfl

theorem finish_moved {p : Program} (h : r.finish = .ok p) :
    (r.moved f).finish = .ok (p.moved f) := by
  obtain ⟨pending, x⟩ := r
  cases x with
  | item =>
    rw [finish_item] at h
    cases h
    rfl
  | more e flaw =>
    cases flaw with
    | some flaw => cases h
    | none =>
      obtain ⟨q, hq, hrest⟩ := exists_of_bind_eq_ok h
      obtain ⟨u, hu, hwhole⟩ := exists_of_bind_eq_ok hrest
      have hsettle : settle false (pending.map (Pending.moved f)) (e.moved f) = _ :=
        settle_moved f _ hq
      have hstatement : statement _ _ = _ := statement_moved f hu
      change finish ⟨pending.map (Pending.moved f), .more (e.moved f) none⟩ = _
      rw [finish_more, hsettle, Except.bind, hstatement]
      exact whole_moved f hwhole
  | ended s => exact whole_moved f h
  | _ => cases h

end Reader

theorem readTokens_moved {ts : List Token} {p : Program} (h : readTokens ts = .ok p) :
    readTokens (ts.map (Token.moved f)) = .ok (p.moved f) := by
  obtain ⟨r, hr, hfinish⟩ := Reader.exists_of_bind_eq_ok h
  have hstart : (Reader.start.moved f).feedAll _ = _ := Reader.feedAll_moved f hr
  change (Reader.start.feedAll _).bind _ = _
  rw [show Reader.start = Reader.start.moved f from rfl, hstart]
  exact Reader.finish_moved f hfinish

end ModuleScript
