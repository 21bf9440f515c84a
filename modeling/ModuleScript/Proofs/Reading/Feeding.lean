import ModuleScript.Program.Reader

/-!
# Feeding readers

What a reader does with tokens one after another, and the places in a source where what has begun
outside stays as it is until what begins inside has ended.
-/

set_option autoImplicit false

namespace ModuleScript.Reader

variable {ts : List Token} {pending : List Pending}

/-- What comes first goes well if all does. -/
theorem exists_of_bind_eq_ok {α β : Type} {x : Except Report α} {f : α → Except Report β} {b : β}
    (h : x.bind f = .ok b) : ∃ a, x = .ok a ∧ f a = .ok b := by
  cases x with
  | error r => cases h
  | ok a => exact ⟨a, rfl, h⟩

theorem feedAll_append (r : Reader) (ts us : List Token) :
    r.feedAll (ts ++ us) = (r.feedAll ts).bind (·.feedAll us) := by
  induction ts generalizing r with
  | nil => rfl
  | cons t ts ih =>
    change (r.feed t).bind (·.feedAll (ts ++ us)) = ((r.feed t).bind (·.feedAll ts)).bind _
    cases r.feed t with
    | error e => rfl
    | ok r => exact ih r

/-- A token that begins an operand and nothing else. -/
def Opens (k : Token.Kind) : Prop :=
  ∀ t : Token, t.kind = k → ∀ pending,
    startItem t pending = startOperand t pending ∧ startOrClose t pending = startOperand t pending

theorem feedAll_item {k : Token.Kind} {ks : List Token.Kind} (hk : Opens k)
    (hts : ts.map Token.kind = k :: ks) :
    feedAll ⟨pending, .item⟩ ts = feedAll ⟨pending, .operand⟩ ts := by
  cases ts with
  | nil => cases hts
  | cons t ts =>
    have ht := (hk t (List.cons.inj hts).1 pending).1
    change (startItem t pending).bind _ = (startOperand t pending).bind _
    rw [ht]

theorem feedAll_operandOrClose {k : Token.Kind} {ks : List Token.Kind} (hk : Opens k)
    (hts : ts.map Token.kind = k :: ks) :
    feedAll ⟨pending, .operandOrClose⟩ ts = feedAll ⟨pending, .operand⟩ ts := by
  cases ts with
  | nil => cases hts
  | cons t ts =>
    have ht := (hk t (List.cons.inj hts).1 pending).2
    change (startOrClose t pending).bind _ = (startOperand t pending).bind _
    rw [ht]

theorem Opens.of_mark {m : Mark} (h : ∀ l pending,
    startItem ⟨.mark m, l⟩ pending = startOperand ⟨.mark m, l⟩ pending ∧
      startOrClose ⟨.mark m, l⟩ pending = startOperand ⟨.mark m, l⟩ pending) :
    Opens (.mark m) := by
  rintro ⟨_, l⟩ rfl pending
  exact h l pending

theorem Opens.of_keyword {k : Keyword} (h : ∀ l pending,
    startItem ⟨.keyword k, l⟩ pending = startOperand ⟨.keyword k, l⟩ pending ∧
      startOrClose ⟨.keyword k, l⟩ pending = startOperand ⟨.keyword k, l⟩ pending) :
    Opens (.keyword k) := by
  rintro ⟨_, l⟩ rfl pending
  exact h l pending

theorem opens_leftParen : Opens (.mark .leftParen) := .of_mark fun _ _ => ⟨rfl, rfl⟩

/-- Where an operand may come, alone or besides something else. -/
def Welcomes (x : Expect) : Prop := x = .item ∨ x = .operand ∨ x = .operandOrClose

theorem feedAll_welcomes {x : Expect} {k : Token.Kind} {ks : List Token.Kind} (hk : Opens k)
    (hts : ts.map Token.kind = k :: ks) (hx : Welcomes x) :
    feedAll ⟨pending, x⟩ ts = feedAll ⟨pending, .operand⟩ ts := by
  rcases hx with rfl | rfl | rfl
  · exact feedAll_item hk hts
  · rfl
  · exact feedAll_operandOrClose hk hts

/-! ## Beginnings -/

/-- A token leaves a longer beginning. -/
inductive Lengthens : Head → Token.Kind → Head → Prop where
  | publicLet (l : Location) : Lengthens (.pubWord l) (.keyword .letWord) (.letWord l true)
  | publicMod (l : Location) : Lengthens (.pubWord l) (.keyword .modWord) (.modWord l true)
  | letName (l : Location) (isPublic : Bool) (n : Ident) :
    Lengthens (.letWord l isPublic) (.identifier n) (.letName l isPublic n)
  | varName (l : Location) (n : Ident) : Lengthens (.varWord l) (.identifier n) (.varName l n)
  | modName (l : Location) (isPublic : Bool) (n : Ident) :
    Lengthens (.modWord l isPublic) (.identifier n) (.modName l isPublic n)
  | importName (l : Location) (ns : List Ident) (n : Ident) :
    Lengthens (.impWord l ns) (.identifier n) (.impName l (ns ++ [n]))
  | importComma (l : Location) (ns : List Ident) :
    Lengthens (.impName l ns) (.mark .comma) (.impWord l ns)
  | fromWord (l : Location) (ns : List Ident) :
    Lengthens (.impName l ns) (.keyword .fromWord) (.fromWord l ns)
  | fnParen (l : Location) : Lengthens (.fnWord l) (.mark .leftParen) (.fnParen l)
  | firstParam (l : Location) (n : Ident) :
    Lengthens (.fnParen l) (.identifier n) (.fnParam l [n])
  | noParams (l : Location) : Lengthens (.fnParen l) (.mark .rightParen) (.fnParams l [])
  | nextParam (l : Location) (ps : List Ident) (n : Ident) :
    Lengthens (.fnComma l ps) (.identifier n) (.fnParam l (ps ++ [n]))
  | paramComma (l : Location) (ps : List Ident) :
    Lengthens (.fnParam l ps) (.mark .comma) (.fnComma l ps)
  | params (l : Location) (ps : List Ident) :
    Lengthens (.fnParam l ps) (.mark .rightParen) (.fnParams l ps)
  | binder (l : Location) (e : Expr) (arms : List Arm) (k : Location) (x : Ident) :
    Lengthens (.bar l e arms k) (.identifier x) (.binder l e arms k x)
  | forName (l : Location) (e : Expr) (x : Ident) :
    Lengthens (.forWord l e) (.identifier x) (.forName l e x)

/-- A token ends a beginning, and the construct goes on with an expression. -/
inductive Enters : Head → Token.Kind → Pending → Prop where
  | publicBinding (l : Location) (n : Ident) :
    Enters (.letName l true n) (.mark .assign) (.publicBinding l n)
  | binding (l : Location) (n : Ident) : Enters (.letName l false n) (.mark .assign) (.binding l n)
  | variation (l : Location) (n : Ident) : Enters (.varName l n) (.mark .assign) (.variation l n)
  | lambda (l : Location) (ps : List Ident) : Enters (.fnParams l ps) (.mark .arrow) (.lambda l ps)
  | armBody (l : Location) (e : Expr) (arms : List Arm) (k : Location) (x : Ident) :
    Enters (.binder l e arms k x) (.keyword .thenWord) (.armBody l e arms k x none)
  | guard (l : Location) (e : Expr) (arms : List Arm) (k : Location) (x : Ident) :
    Enters (.binder l e arms k x) (.keyword .andWord) (.guard l e arms k x)
  | iterable (l : Location) (e : Expr) (x : Ident) :
    Enters (.forName l e x) (.keyword .inWord) (.iterable l e x)

/-- What a token can do behind a beginning: only a module goes on with a body, and only an import
ends here. -/
theorem advance_cases {t : Token} {head : Head} {r : Reader} (h : advance t pending head = .ok r) :
    (∃ longer, Lengthens head t.kind longer ∧ r = ⟨pending, .within longer⟩) ∨
      (∃ p, Enters head t.kind p ∧ r = ⟨p :: pending, .operand⟩) ∨
      (∃ l isPublic n, head = .modName l isPublic n ∧ t.kind = .mark .leftBrace ∧
        r = ⟨.moduleBody l isPublic n [] :: pending, .item⟩) ∨
        ∃ l ns path, head = .fromWord l ns ∧ t.kind = .string path ∧
          r = ⟨pending, .ended (.imports l ns path)⟩ := by
  obtain ⟨k, l⟩ := t
  unfold advance at h
  dsimp only at h
  split at h <;> cases h
  all_goals first
    | exact .inl ⟨_, by constructor, rfl⟩
    | exact .inr (.inl ⟨_, by constructor, rfl⟩)
    | exact .inr (.inr (.inl ⟨_, _, _, rfl, rfl, rfl⟩))
    | exact .inr (.inr (.inr ⟨_, _, _, rfl, rfl, rfl⟩))

/-! ## Places -/

/-- What has begun is ended by no operator and no closer. -/
structure Firm (pending : List Pending) : Prop where
  operators : ∀ level e, settleOperators level pending e = (pending, e)
  settle : ∀ atBar e, Reader.settle atBar pending e = .ok (pending, e)

/-- An expression here would be a statement of its own. -/
structure Walled (pending : List Pending) : Prop extends Firm pending where
  statement : ∀ e, Reader.statement pending e = .ok (pending, .expr e)

theorem walled_group (l : Location) (pending : List Pending) : Walled (.group l :: pending) :=
  ⟨⟨fun _ _ => rfl, fun _ _ => rfl⟩, fun _ => rfl⟩

/-- A place that holds the statements of a body. -/
structure Body (p : List Stmt → List Pending) : Prop where
  walled : ∀ done, Walled (p done)
  add : ∀ done s, addStatement? s (p done) = some (p (done ++ [s]))

theorem body_program : Body fun done => [.program done] :=
  ⟨fun _ => ⟨⟨fun _ _ => rfl, fun _ _ => rfl⟩, fun _ => rfl⟩, fun _ _ => rfl⟩

theorem body_block (l : Location) (pending : List Pending) :
    Body fun done => .block l done :: pending :=
  ⟨fun _ => ⟨⟨fun _ _ => rfl, fun _ _ => rfl⟩, fun _ => rfl⟩, fun _ _ => rfl⟩

theorem body_module (l : Location) (isPublic : Bool) (n : Ident) (pending : List Pending) :
    Body fun done => .moduleBody l isPublic n done :: pending :=
  ⟨fun _ => ⟨⟨fun _ _ => rfl, fun _ _ => rfl⟩, fun _ => rfl⟩, fun _ _ => rfl⟩

end ModuleScript.Reader
