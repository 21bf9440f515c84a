import ModuleScript.Proofs.Locations

/-!
# Reports without a place

What goes wrong when values are computed, names looked up and bindings changed is reported without a
place: only nodes know where they stand.
-/

set_option autoImplicit false

namespace ModuleScript

open Eval

/-! ## Results -/

/-- A report in which the result ends has no place. -/
def Failure.Bare {α : Type} (r : Except Failure α) : Prop := r.mapError unplaced = r

namespace Failure

variable {α β : Type}

theorem bare_ok (a : α) : Bare (.ok a) := rfl

theorem bare_because (c : Cause) : Bare (because c : Except Failure α) := rfl

theorem bare_lift (r : Except Fault α) : Bare (lift r) := by
  cases r <;> rfl

theorem Bare.unplaced_eq {r : Except Failure α} (hr : Bare r) {e : Failure} (he : r = .error e) :
    e.unplaced = e := by
  subst he
  exact Except.error.inj hr

theorem Bare.bind {r : Except Failure α} {f : α → Except Failure β} (hr : Bare r)
    (hf : ∀ a, Bare (f a)) : Bare (r >>= f) := by
  cases r with
  | ok a => exact hf a
  | error e => exact congrArg Except.error (hr.unplaced_eq rfl)

theorem Bare.map {r : Except Failure α} (hr : Bare r) (f : α → β) : Bare (r.map f) := by
  cases r with
  | ok a => exact bare_ok _
  | error e => exact congrArg Except.error (hr.unplaced_eq rfl)

end Failure

theorem Host.bare_grants (h : Host) (d : Demand) : Failure.Bare (h.grants d) := by
  cases d with
  | write t => exact Failure.bare_lift _
  | _ => exact Failure.bare_ok _

namespace Value

open Failure

theorem bare_undefined {α : Type} (op : BinaryOp) (a b : Value) :
    Bare (undefined op a b : Except Failure α) := rfl

theorem bare_shiftChar (c : CodePoint) (offset : Int) : Bare (shiftChar c offset) := by
  unfold shiftChar
  dsimp only
  split
  · exact bare_ok _
  · exact (bare_lift _).bind fun _ => bare_because _

theorem bare_add (a b : Value) : Bare (add a b) := by
  unfold add
  split
  · exact bare_lift _
  · exact bare_lift _
  · exact bare_lift _
  · exact bare_shiftChar _ _
  · exact bare_ok _
  · exact bare_undefined _ _ _

theorem bare_subtract (a b : Value) : Bare (subtract a b) := by
  unfold subtract
  split
  · exact bare_lift _
  · exact bare_shiftChar _ _
  · exact bare_undefined _ _ _

theorem bare_multiply (a b : Value) : Bare (multiply a b) := by
  unfold multiply
  split
  · exact bare_lift _
  · exact bare_undefined _ _ _

theorem bare_divide (a b : Value) : Bare (divide a b) := by
  unfold divide
  split
  · split
    · exact bare_because _
    · exact bare_lift _
  · exact bare_undefined _ _ _

theorem bare_modulo (a b : Value) : Bare (modulo a b) := by
  unfold modulo
  split
  · split
    · exact bare_because _
    · exact bare_ok _
  · exact bare_undefined _ _ _

theorem bare_lessThan (a b : Value) : Bare (lessThan a b) := by
  unfold lessThan
  split
  · exact bare_ok _
  · exact bare_undefined _ _ _

theorem bare_greaterThan (a b : Value) : Bare (greaterThan a b) := by
  unfold greaterThan
  split
  · exact bare_ok _
  · exact bare_undefined _ _ _

theorem bare_binary (op : BinaryOp) (a b : Value) : Bare (binary op a b) := by
  cases op with
  | add => exact bare_add a b
  | subtract => exact bare_subtract a b
  | multiply => exact bare_multiply a b
  | divide => exact bare_divide a b
  | modulo => exact bare_modulo a b
  | less => exact bare_lessThan a b
  | greater => exact bare_greaterThan a b
  | equal | notEqual => exact bare_ok _
  | and | or => exact bare_undefined _ _ _

theorem bare_negate (v : Value) : Bare v.negate := by
  cases v <;> rfl

theorem bare_head (v : Value) : Bare v.head := by
  unfold head
  split
  · exact bare_ok _
  · exact bare_because _
  · exact bare_because _

theorem bare_tail (v : Value) : Bare v.tail := by
  cases v <;> rfl

theorem bare_unary (op : UnaryOp) (v : Value) : Bare (unary op v) := by
  cases op with
  | negate => exact bare_negate v
  | head => exact bare_head v
  | tail => exact bare_tail v

theorem bare_truthy (v : Value) : Bare v.truthy := by
  cases v <;> rfl

theorem bare_expectText (n : Native) (v : Value) : Bare (v.expectText n) := by
  cases v <;> rfl

theorem bare_expectInt (n : Native) (v : Value) : Bare (v.expectInt n) := by
  unfold expectInt
  split
  · exact bare_ok _
  · exact (bare_lift _).bind fun _ => bare_because _

theorem bare_expectItems (n : Native) (v : Value) : Bare (v.expectItems n) := by
  unfold expectItems
  split
  · exact bare_ok _
  · exact bare_because _

theorem bare_numberRange (first stop : Value) : Bare (numberRange first stop) :=
  (bare_expectInt _ _).bind fun _ => (bare_expectInt _ _).bind fun _ => bare_ok _

theorem bare_changeCase (n : Native) (change : Text → Text) (v : Value) :
    Bare (changeCase n change v) :=
  (bare_expectText n v).bind fun _ => bare_ok _

theorem bare_substring (v first stop : Value) : Bare (substring v first stop) := by
  refine (bare_expectText _ v).bind fun t => ?_
  refine (bare_expectInt _ first).bind fun begin => (bare_expectInt _ stop).bind fun finish => ?_
  split
  · exact bare_ok _
  · exact (bare_lift _).bind fun _ => (bare_lift _).bind fun _ => bare_because _

theorem bare_parseInteger (v : Value) : Bare (parseInteger v) := by
  refine (bare_expectText _ v).bind fun t => ?_
  dsimp only
  split
  · exact bare_ok _
  · exact (bare_lift _).bind fun _ => bare_ok _

theorem bare_parseTruth (v : Value) : Bare (parseTruth v) :=
  (bare_expectText _ v).bind fun _ => bare_ok _

theorem bare_reversed (v : Value) : Bare (reversed v) := by
  unfold reversed
  split
  · exact bare_ok _
  · exact (bare_expectItems _ _).bind fun _ => bare_ok _

theorem bare_last (v : Value) : Bare (last v) := (bare_expectItems _ v).bind fun _ => bare_ok _

theorem bare_applyNative? {n : Native} {args : List Value} {r : Except Failure Value}
    (h : applyNative? n args = some r) : Bare r := by
  unfold applyNative? at h
  split at h <;> cases h
  · exact bare_ok _
  · exact bare_changeCase _ _ _
  · exact bare_changeCase _ _ _
  · exact bare_substring _ _ _
  · exact bare_parseInteger _
  · exact bare_parseTruth _
  · exact bare_numberRange _ _
  · exact bare_reversed _
  · exact bare_last _

end Value

/-! ## Changes of the machine -/

theorem Record.bare_declare (r : Record) (n : Ident) (v : Visibility) :
    Failure.Bare (r.declare n v) := by
  unfold declare
  split
  · exact Failure.bare_ok _
  · split
    · exact Failure.bare_ok _
    · exact Failure.bare_because _

namespace Machine

theorem bare_declareModule (m : Machine) (p : ModulePath) (parent : Option RecordId) :
    Failure.Bare (m.declareModule p parent) := by
  unfold declareModule
  split
  · exact Failure.bare_because _
  · exact Failure.bare_ok _

theorem bare_beginLoading (m : Machine) (p : Path) : Failure.Bare (m.beginLoading p) := by
  unfold beginLoading
  split
  · exact Failure.bare_because _
  · exact Failure.bare_ok _

theorem bare_finishLoading (m : Machine) (p : Path) (e : Exports) :
    Failure.Bare (m.finishLoading p e) := by
  unfold finishLoading
  split
  · exact Failure.bare_ok _
  · rfl

end Machine

/-! ## Computations -/

namespace Eval

variable {α β : Type}

/-- Reports that come out of the computation have no place. -/
def Bare (x : Eval α) : Prop := unplaced x = x

theorem bare_pure (a : α) : Bare (pure a) := rfl

theorem bare_because (c : Cause) : Bare (because c : Eval α) := rfl

theorem bare_modify (f : Machine → Machine) : Bare (modify f) := rfl

theorem bare_lift {r : Except Failure α} (hr : Failure.Bare r) : Bare (lift r) := by
  cases r with
  | ok a => rfl
  | error e => exact congrArg (fun e => (throw e : Eval α)) (hr.unplaced_eq rfl)

theorem Bare.bind {x : Eval α} {f : α → Eval β} (hx : Bare x) (hf : ∀ a, Bare (f a)) :
    Bare (x >>= f) := by
  unfold Bare
  rw [unplaced_bind, hx]
  exact bind_congr hf

theorem bare_get {f : Machine → Eval α} (hf : ∀ m, Bare (f m)) : Bare (get >>= f) :=
  Bare.bind (x := get) rfl hf

theorem bare_readSlot (code owner : Option ModulePath) (v : Visibility) (name : Ident) (s : Slot) :
    Bare (readSlot code owner v name s) := by
  unfold readSlot
  split
  · exact bare_because _
  · split
    · exact bare_because _
    · exact bare_pure _

theorem bare_resolve (c : Context) (name : Ident) : Bare (resolve c name) := by
  refine bare_get fun m => ?_
  cases m.lookup c.scope name with
  | none => exact bare_because _
  | some r => exact (bare_readSlot _ _ _ _ _).bind fun _ => bare_pure _

theorem bare_follow (c : Context) (walked : Text) (v : Value) (names : List Ident) :
    Bare (follow c walked v names) := by
  induction names generalizing walked v with
  | nil => exact bare_pure v
  | cons name rest ih =>
    cases v with
    | module id path =>
      refine bare_get fun m => ?_
      cases (m.record id).member? name with
      | none => exact bare_because _
      | some p => exact (bare_readSlot _ _ _ _ _).bind fun v => ih _ v
    | _ => exact bare_because _

theorem bare_dotted (c : Context) (names : List Ident) : Bare (dotted c names) := by
  cases names with
  | nil => exact bare_pure Value.unit
  | cons first rest => exact (bare_resolve c first).bind fun _ => bare_follow c first _ rest

theorem bare_boolOperand (op : BinaryOp) (v : Value) : Bare (boolOperand op v) := by
  cases v <;> rfl

/-- If no failure of the computation has a place, its reports have none. -/
theorem bare_of_errors {x : Eval α} (hx : ∀ m e k, x m = .error e k → e.unplaced = e) : Bare x := by
  funext m
  cases he : x m with
  | ok a k => exact unplaced_ok he
  | error e k => rw [unplaced_error he, hx m e k he]

theorem Bare.unplaced_eq {x : Eval α} (hx : Bare x) {m k : Machine} {e : Failure}
    (he : x m = .error e k) : e.unplaced = e := by
  have hm := congrFun hx m
  rw [unplaced_error he, he] at hm
  exact (EStateM.Result.error.inj hm).1

theorem bare_change {f : Machine → Except Failure Machine} (hf : ∀ m, Failure.Bare (f m)) :
    Bare (change f) := by
  refine bare_of_errors fun m e k he => ?_
  unfold change at he
  split at he
  · cases he
  · rename_i hm
    cases he
    exact (hf m).unplaced_eq hm

/-! ## Computations that only read -/

/-- The computation leaves every machine as it is, and its reports have no place. -/
structure Quiet (x : Eval α) : Prop where
  reads : Reads x
  bare : Bare x

theorem reads_lift (r : Except Failure α) : Reads (lift r) := by
  cases r with
  | ok a => exact reads_pure a
  | error e => exact reads_throw e

theorem reads_boolOperand (op : BinaryOp) (v : Value) : Reads (boolOperand op v) := by
  cases v with
  | bool b => exact reads_pure b
  | _ => exact reads_because _

theorem quiet_pure (a : α) : Quiet (pure a) := ⟨reads_pure a, bare_pure a⟩

theorem quiet_because (c : Cause) : Quiet (because c : Eval α) := ⟨reads_because c, bare_because c⟩

theorem quiet_lift {r : Except Failure α} (hr : Failure.Bare r) : Quiet (lift r) :=
  ⟨reads_lift r, bare_lift hr⟩

theorem quiet_resolve (c : Context) (name : Ident) : Quiet (resolve c name) :=
  ⟨reads_resolve c name, bare_resolve c name⟩

theorem quiet_dotted (c : Context) (names : List Ident) : Quiet (dotted c names) :=
  ⟨reads_dotted c names, bare_dotted c names⟩

theorem quiet_boolOperand (op : BinaryOp) (v : Value) : Quiet (boolOperand op v) :=
  ⟨reads_boolOperand op v, bare_boolOperand op v⟩

end Eval

end ModuleScript
