import ModuleScript.Proofs.Invariant.Actions
import ModuleScript.Proofs.Loading
import ModuleScript.Proofs.Pending.Rules

/-!
# Every declared member gets its value

A statement of a module body gives the name it declares a value, and nothing takes it away again
while the body goes on. So a declaration that ends well leaves its module, and all modules made in
the meantime, without pending members. A run that keeps account of the declarations around each task
is tidy.
-/

set_option autoImplicit false

namespace ModuleScript

open Eval

/-- The module that the task makes, if it gets so far. -/
def Task.makes (t : Task) (m : Machine) : List RecordId :=
  match t with
  | .eval _ s => if s.isModule then [m.records.size] else []
  | _ => []

/-- The node that a task evaluates. -/
def Task.node? : Task → Option (Context × Stmt)
  | .eval c s => some (c, s)
  | .wait t => t.node?
  | _ => none

open Classical in
/-- Performs tasks, each of which stands in the declarations of the modules `around`. A task that
does not end as the check demands is handed to `alarm`. -/
noncomputable def Eval.surveyed (h : Host)
    (check : List RecordId → Task → Machine → Outcome → Prop) (alarm : Step) :
    Nat → List RecordId → Step
  | 0, _ => fun _ => throw .tooDeep
  | depth + 1, around => fun t m =>
    if check around t m (step h (surveyed h check alarm depth (t.makes m ++ around)) t m) then
      step h (surveyed h check alarm depth (t.makes m ++ around)) t m
    else alarm t m

namespace Survey

variable {S : Survey} {around : List RecordId} {self self' : Step} {m k : Machine} {c : Context}
  {n : Ident} {h : Host}

/-! ## What evaluation does itself -/

theorem not_pending_of_plain {f : Frame} (hf : f.Plain) (n : Ident) :
    (n, .pending) ∉ f.bindings := by
  intro hn
  obtain ⟨v, hv⟩ := hf.bindings n _ hn
  cases hv

theorem calm_enter (hm : m.Bound) (c : Context) {f : Frame} (hf : f.Plain) :
    m.Calm around (endOf (c.enter f m)) :=
  Machine.calm_pushFrame hm (not_pending_of_plain hf) fun i hi => by
    rw [hf.record] at hi
    cases hi

theorem calm_eraseExport (hm : m.Bound) (i : ExportsId) (n : Ident) :
    m.Calm around (m.eraseExport i n) :=
  Machine.calm_of_eq hm rfl rfl

theorem calm_setExport (hm : m.Bound) (e : ExportsId) (n : Ident) (v : Value) :
    m.Calm around (m.setExport e n v) :=
  Machine.calm_of_eq hm rfl rfl

theorem endOf_modify (f : Machine → Machine) (m : Machine) :
    endOf ((modify f : Eval Unit) m) = f m := rfl

theorem calm_define (hm : m.Bound) (c : Context) (n : Ident) (v : Value) (isPublic : Bool) :
    m.Calm around (endOf (define c n v isPublic m)) := by
  unfold define
  rw [endOf_modify]
  cases (m.frame c.scope.frame).record with
  | some i => exact Machine.calm_defineMember hm i n v _
  | none =>
    have hset : m.Calm around (m.setSlot c.scope.frame n (.value v)) :=
      Machine.calm_setSlot hm _ n fun hs => by cases hs
    dsimp only
    split
    · exact hset.trans (calm_setExport hset.onward.bound _ n v)
    · exact hset

theorem calm_replace (hm : m.Bound) (c : Context) (r : Resolution) (n : Ident) (v : Value) :
    m.Calm around (endOf (replace c r n v m)) := by
  unfold replace
  rw [endOf_modify]
  cases r.owner with
  | some i => exact Machine.calm_defineMember hm i n v _
  | none =>
    have hset : m.Calm around (m.setSlot r.frame n (.value v)) :=
      Machine.calm_setSlot hm _ n fun hs => by cases hs
    dsimp only
    split
    · exact hset.trans (calm_setExport hset.onward.bound _ n v)
    · exact hset

theorem always_idle {α : Type} {x : Eval α} (hx : ∀ m, (endOf (x m)).frames = m.frames ∧
    (endOf (x m)).records = m.records) : S.Always around x x :=
  always_own fun m hm => Machine.calm_of_eq hm (hx m).1 (hx m).2

theorem always_newClosure (o : Option Ident) (vs : List Variant) :
    S.Always around (newClosure o vs) (newClosure o vs) :=
  always_idle fun _ => ⟨rfl, rfl⟩

theorem always_vary (c : Context) (n : Ident) (v : Variant) :
    S.Always around (vary c n v) (vary c n v) := by
  refine (always_reads (reads_resolve c n)).bind fun ⟨r, existing⟩ => ?_
  cases existing with
  | closure f =>
    dsimp only
    split
    · exact always_reads (reads_because _)
    · refine (always_newClosure _ _).bind fun updated => ?_
      refine (always_own fun m hm => calm_replace hm c r n updated).bind fun _ => ?_
      exact always_reads (reads_pure updated)
  | _ => exact always_reads (reads_because _)

/-- What evaluation does itself in expressions is calm. -/
def habit (S : Survey) (around : List RecordId) : Habit where
  Rel := S.Always around
  bind := Always.bind
  quiet hx := always_reads hx.reads
  enter c _ hf := always_own fun _ hm => calm_enter hm c hf
  define c n v isPublic := always_own fun _ hm => calm_define hm c n v isPublic
  newClosure := always_newClosure
  write _ := always_idle fun _ => ⟨rfl, rfl⟩
  readLine := always_idle fun _ => ⟨rfl, rfl⟩

/-! ## Tasks -/

/-- There is the frame, and if it belongs to a module, that is under way. -/
structure Placed (around : List RecordId) (m : Machine) (f : FrameId) : Prop where
  frame : f < m.frames.size
  under : ∀ i, (m.frame f).record = some i → i ∈ around

/-- Modules are declared only in frames outside all modules or of modules that are under way. -/
def Fits (around : List RecordId) (m : Machine) : Task → Prop
  | .eval c s => s.isModule = true → Placed around m c.scope.frame
  | .wait t => Fits around m t
  | _ => True

theorem fits_after (n : Nat) (t : Task) : Fits around m (t.after n) ↔ Fits around m t := by
  induction n with
  | zero => exact .rfl
  | succ n ih => exact ih

/-- The name that the statement declares is no pending member. -/
def Provides (c : Context) (s : Stmt) (k : Machine) : Prop :=
  ∀ n vis i, declared? s = some (n, vis) → (k.frame c.scope.frame).record = some i →
    ∀ w, ¬ k.Awaits i w n

/-- What a task has brought about when it ends well. -/
structure Done (m : Machine) (t : Task) (k : Machine) (v : Value) : Prop where
  provides : ∀ c s, t.node? = some (c, s) → Provides c s k
  makes : t.isModule = true → m.records.size < k.records.size ∧
    ∃ p, v = .module m.records.size p

/-- The steps are tidy on tasks that fit. -/
def Follows (S : Survey) (around : List RecordId) (next next' : Step) : Prop :=
  ∀ m t, Fits around m t → S.Tidy around m (Done m t) (next t) (next' t)

theorem Done.of_after {n : Nat} {t : Task} {v : Value} (h : Done m (t.after n) k v) :
    Done m t k v := by
  induction n with
  | zero => exact h
  | succ n ih => exact ih ⟨h.provides, h.makes⟩

theorem Follows.below (hf : Follows S around self self') (h : Host) (w : Work) :
    Follows S around (self.below h w) (self'.below h w) :=
  fun m t ht => (hf m _ ((fits_after _ t).mpr ht)).imp fun _ _ _ => Done.of_after

theorem Placed.later {f : FrameId} (h : Placed around m f) (hk : m.Onward around k) :
    Placed around k f := by
  refine ⟨Nat.lt_of_lt_of_le h.frame hk.frames, fun i hi => ?_⟩
  rw [hk.attached f h.frame] at hi
  exact h.under i hi

theorem Provides.later {s : Stmt} (h : Provides c s m) (hc : c.scope.frame < m.frames.size)
    (hs : m.Settles k) (hk : m.Onward around k) : Provides c s k := by
  intro n vis i hn hi w hw
  rw [hk.attached _ hc] at hi
  exact h n vis i hn hi w (hs i w n hw)

theorem fits_of_not_module {t : Task} (ht : t.isModule = false) : Fits around m t := by
  induction t with
  | apply | ask => trivial
  | wait t ih => exact ih ht
  | eval c s => exact fun hs => by rw [show s.isModule = false from ht] at hs; cases hs

theorem placed_plain {f : Frame} (hf : f.Plain) : Placed around (m.pushFrame f) m.frames.size := by
  refine ⟨by simp [Machine.pushFrame], fun i hi => ?_⟩
  rw [Machine.frame_pushFrame_size, hf.record] at hi
  cases hi

theorem stmts_tidy (hf : Follows S around self self') (hc : Placed around m c.scope.frame)
    (ss : List Stmt) :
    S.Tidy around m (fun k _ => ∀ s ∈ ss, c.scope.frame < k.frames.size ∧ Provides c s k)
      (self.stmts c ss) (self'.stmts c ss) := by
  refine tidy_foldlM (R := fun s k => c.scope.frame < k.frames.size ∧ Provides c s k) ?_ ?_ Value.unit
  · rintro s k k' hs hk ⟨hlt, hp⟩
    exact ⟨Nat.lt_of_lt_of_le hlt hk.frames, hp.later hlt hs hk⟩
  · intro k _ s hk _
    have hck := hc.later hk
    have hs : Fits around k (.eval c s) := fun _ => hck
    exact (hf k _ hs).imp fun n _ hn hd =>
      ⟨Nat.lt_of_lt_of_le hck.frame hn.frames, hd.provides c s rfl⟩

theorem habit_follows (hf : Follows S around self self') : (S.habit around).Follows self self' where
  task t ht m := (hf m t (fits_of_not_module ht)).imp fun _ _ _ _ => trivial
  block c name ss m := by
    have hplain := Frame.plain_empty name
    have henter : S.Tidy around m (fun k d => Placed around k d.scope.frame) (c.enter { name })
        (c.enter { name }) := by
      refine tidy_own fun hm => ⟨calm_enter hm c hplain, fun d k hd => ?_⟩
      cases hd
      exact placed_plain hplain
    exact henter.bind fun k d _ hd => (stmts_tidy hf hd ss).imp fun _ _ _ _ => trivial

/-! ## Statements that bind -/

theorem provides_define (hm : m.Bound) (c : Context) (n : Ident) (v : Value) (isPublic : Bool)
    {i : RecordId} (hi : (m.frame c.scope.frame).record = some i) (w : Visibility) :
    ¬ (endOf (define c n v isPublic m)).Awaits i w n := by
  have hdefine : endOf (define c n v isPublic m) =
      m.defineMember i n (.value v) (Visibility.ofBool isPublic) := by
    unfold define
    rw [endOf_modify, hi]
  rw [hdefine]
  exact Machine.awaits_defineMember hm i n v _ w

theorem attached_define (c : Context) (n : Ident) (v : Value) (isPublic : Bool) (m : Machine)
    (f : FrameId) : ((endOf (define c n v isPublic m)).frame f).record = (m.frame f).record := by
  unfold define
  rw [endOf_modify]
  cases (m.frame c.scope.frame).record with
  | some i => rfl
  | none =>
    have hset : ((m.setSlot c.scope.frame n (.value v)).frame f).record = (m.frame f).record := by
      unfold Machine.setSlot
      rcases Machine.frame_modify m c.scope.frame f
        fun g => { g with bindings := g.bindings.set n (.value v) } with he | ⟨-, he⟩
      · rw [he]
      · rw [he]
    dsimp only
    split
    · exact hset
    · exact hset

theorem binding_tidy (hf : Follows S around self self') {s : Stmt} {e : Expr} {isPublic : Bool}
    {vis : Visibility} (hs : declared? s = some (n, vis)) (hmodule : s.isModule = false) :
    S.Tidy around m (Done m (.eval c s))
      (do let v ← self.expr c e; define c n v isPublic; return v)
      (do let v ← self'.expr c e; define c n v isPublic; return v) := by
  have hinit := hf m (.eval c (.expr e)) fun he => by cases he
  refine hinit.bind fun k v _ _ => ?_
  have hdefine : S.Tidy around k (fun k' _ => Provides c s k') (define c n v isPublic)
      (define c n v isPublic) := by
    refine tidy_own fun hk => ⟨calm_define hk c n v isPublic, fun _ k' he => ?_⟩
    have hend : k' = endOf (define c n v isPublic k) := by rw [he]; rfl
    subst hend
    intro x vis' i hx hi w
    rw [hs] at hx
    cases hx
    rw [attached_define] at hi
    exact provides_define hk c n v isPublic hi w
  refine hdefine.bind fun k' _ _ hp => tidy_pure ⟨?_, ?_⟩
  · rintro _ _ ⟨⟩
    exact hp
  · intro ht
    rw [show Task.isModule (.eval c s) = s.isModule from rfl, hmodule] at ht
    cases ht

/-! ## Files -/

theorem always_evaluateFile {path : Path} (hf : Follows S around self self') :
    S.Always around (evaluateFile h self path) (evaluateFile h self' path) := by
  intro m
  refine tidy_lift_bind fun source _ => ?_
  have hask : S.Always around (self.ask (.read source)) (self'.ask (.read source)) :=
    (habit_follows hf).ask (.read source)
  refine (hask m).bind fun m _ _ _ => tidy_lift_bind fun program _ => ?_
  have hopen : S.Tidy around m (fun k site => Placed around k site.globals) (openFile path)
      (openFile path) := by
    refine tidy_own fun hm => ⟨?_, fun site k he => ?_⟩
    · have hpush : m.Calm around (m.pushFrame { name := "global " ++ path.name }) :=
        calm_enter hm ⟨⟨[], 0, 0⟩, ⟨0, []⟩, none⟩ (Frame.plain_empty _)
      exact hpush.trans (Machine.calm_of_eq hpush.onward.bound rfl rfl)
    · cases he
      have hpushed : Placed around (m.pushFrame { name := "global " ++ path.name }) m.frames.size :=
        placed_plain (Frame.plain_empty _)
      exact ⟨hpushed.frame, hpushed.under⟩
  refine hopen.bind fun k site _ hsite => ?_
  refine (stmts_tidy hf (c := top site [preludeFrame, builtinsFrame]) hsite program).bind
    fun k' _ _ _ => tidy_get ?_
  exact tidy_pure trivial

theorem always_change {f : Machine → Except Failure Machine}
    (hf : ∀ m k, f m = .ok k → k.frames = m.frames ∧ k.records = m.records) :
    S.Always around (change f) (change f) := by
  refine always_own fun m hm => ?_
  cases he : f m with
  | ok k =>
    rw [change_of_ok he]
    exact Machine.calm_of_eq hm (hf m k he).1 (hf m k he).2
  | error e =>
    rw [change_of_error he]
    exact Machine.calm_refl around hm

theorem always_beginLoading (p : Path) :
    S.Always around (change (·.beginLoading p)) (change (·.beginLoading p)) :=
  always_change fun m k hk => by
    obtain ⟨-, rfl⟩ := Machine.beginLoading_eq_ok hk
    exact ⟨rfl, rfl⟩

theorem always_finishLoading (p : Path) (e : Machine → Exports) :
    S.Always around (change fun m => m.finishLoading p (e m))
      (change fun m => m.finishLoading p (e m)) :=
  always_change fun m k hk => by
    obtain ⟨-, rfl⟩ := Machine.finishLoading_eq_ok hk
    exact ⟨rfl, rfl⟩

theorem onward_abortLoading (hm : m.Bound) (p : Path) : m.Onward around (m.abortLoading p) := by
  have hcalm : m.Calm around (m.abortLoading p) := Machine.calm_of_eq hm rfl rfl
  exact hcalm.onward

theorem always_aborting {α : Type} {x y : Eval α} (hx : S.Always around x y) (p : Path) :
    S.Always around (mending x (·.abortLoading p)) (mending y (·.abortLoading p)) :=
  fun m hm => (hx m hm).mending hm.under fun _ hk => onward_abortLoading hk.bound p

theorem always_load (hf : Follows S around self self') (relative importer : Text) :
    S.Always around (load h self relative importer) (load h self' relative importer) := by
  intro m
  refine tidy_lift_bind fun path _ => tidy_get ?_
  cases m.loaded? path with
  | some e => exact tidy_pure trivial
  | none =>
    have hopen : S.Always around
        (loadFresh h self path) (loadFresh h self' path) :=
      (always_beginLoading path).bind fun _ =>
        (always_aborting (always_evaluateFile hf) path).bind fun e =>
          (always_finishLoading path fun _ => e).bind fun _ => always_reads (reads_pure e)
    refine tidy_lift_bind fun isFile _ => ?_
    cases isFile with
    | false => exact (always_reads (reads_because _)).bind (fun _ => hopen) m
    | true => exact hopen m

/-! ## Modules -/

/-- The body of a module that has been opened may be entered. -/
structure Entered (m : Machine) (c : Context) (n : Ident) (o : Opened) (k : Machine) : Prop where
  id : o.id = m.records.size
  lt : o.id < k.records.size
  frame : o.inner.scope.frame < k.frames.size
  attached : (k.frame o.inner.scope.frame).record = some o.id
  provides : ∀ i, (k.frame c.scope.frame).record = some i → ∀ w, ¬ k.Awaits i w n
  slot : o.old.slot ≠ some .pending

theorem openModule_calm (isPublic : Bool) (n : Ident) (hm : m.Bound) (hc : Placed around m c.scope.frame) :
    m.Calm around (endOf (openModule c isPublic n m)) ∧
      ∀ o k, openModule c isPublic n m = .ok o k → Entered m c n o k := by
  cases hr : register c n m with
  | error e k =>
    have herror : openModule c isPublic n m = .error e m := by
      unfold openModule
      rw [bind_of_error hr, Invariant.machine_of_register_error hr]
    rw [herror]
    exact ⟨Machine.calm_refl around hm, fun _ _ he => by cases he⟩
  | ok r m₁ =>
    obtain ⟨i, p, isOutermost⟩ := r
    obtain ⟨-, -, hi, hm₁⟩ := Machine.register_eq_ok hr
    have hsize : m₁.records.size = i + 1 := by rw [hi, hm₁]; exact Array.size_push _
    have hregistered : m.Calm around m₁ := by
      rw [hm₁]
      refine Machine.calm_pushRecord hm (fun vis => by cases vis <;> rfl) _ fun j hj => ?_
      exact ⟨hc.under j hj, hm.attached _ j hj⟩
    let m₂ := endOf (define c n (.module i p) (isPublic || isOutermost) m₁)
    have hdefined : m₁.Calm around m₂ := calm_define hregistered.onward.bound c n _ _
    let frame : Frame := { name := "mod " ++ p.text, record := some i }
    have hlt : i < m₂.records.size := Nat.lt_of_lt_of_le (by omega) hdefined.onward.records
    have hpushed : m₂.Calm around (m₂.pushFrame frame) :=
      Machine.calm_pushFrame hdefined.onward.bound (fun _ hn => by cases hn) fun j hj => by
        cases hj
        exact hlt
    have hopen : openModule c isPublic n m = .ok ⟨i, p, previous c n m₁,
        ⟨c.site, c.scope.push m₂.frames.size, some p⟩⟩ (m₂.pushFrame frame) := by
      unfold openModule
      rw [bind_of_ok hr]
      rfl
    rw [hopen]
    refine ⟨(hregistered.trans hdefined).trans hpushed, fun o k he => ?_⟩
    cases he
    have hold : c.scope.frame < m₂.frames.size :=
      Nat.lt_of_lt_of_le hc.frame (hregistered.trans hdefined).onward.frames
    refine ⟨hi, hlt, by simp [Machine.pushFrame, Scope.push], ?_, fun j hj w hw => ?_, fun hs => ?_⟩
    · exact congrArg Frame.record (Machine.frame_pushFrame_size m₂ frame)
    · rw [Machine.frame_pushFrame m₂ frame hold, attached_define] at hj
      exact provides_define hregistered.onward.bound c n _ _ hj w hw
    · exact hregistered.onward.bound.slots _ n (Bindings.mem_of_get? hs)

/-- What a module made since may be given does not matter to the modules that there were. -/
theorem onward_inside {i : RecordId} {m' : Machine} (h : m.Onward around k)
    (h' : k.Onward (i :: around) m') (hi : m.records.size ≤ i) : m.Onward around m' where
  frames := Nat.le_trans h.frames h'.frames
  records := Nat.le_trans h.records h'.records
  attached f hf := by
    rw [h'.attached f (Nat.lt_of_lt_of_le hf h.frames), h.attached f hf]
  bound := h'.bound
  parent j hj := by
    rw [h'.parent j (Nat.lt_of_lt_of_le hj h.records), h.parent j hj]
  children j q hj hp := by
    by_cases hlt : j < k.records.size
    · rw [h'.parent j hlt] at hp
      exact h.children j q hj hp
    · rcases h'.children j q (Nat.le_of_not_lt hlt) hp with hin | hle
      · rcases List.mem_cons.mp hin with rfl | hin
        · exact .inr hi
        · exact .inl hin
      · exact .inr (Nat.le_trans h.records hle)
  kept j hj hout vis n hn := by
    have hout' : j ∉ i :: around := fun hin => by
      rcases List.mem_cons.mp hin with rfl | hin
      · exact Nat.not_lt_of_le hi hj
      · exact hout hin
    exact h.kept j hj hout vis n (h'.kept j (Nat.lt_of_lt_of_le hj h.records) hout' vis n hn)

variable (around) in
/-- To declare a member makes it pending at most, and nothing else. -/
theorem declare_onward {i : RecordId} {vis : Visibility} {r : Record} (hm : m.Bound)
    (hr : (m.record i).declare n vis = .ok r) :
    m.Onward (i :: around) (m.setRecord i r) ∧ ∀ j w x, (m.setRecord i r).Awaits j w x →
      m.Awaits j w x ∨ j = i ∧ (x, w) = (n, vis) := by
  have hshape : r.parent = (m.record i).parent ∧ r.Tiered ∧
      ∀ w x, (r.members w).get? x = some .pending → m.Awaits i w x ∨ (x, w) = (n, vis) := by
    rcases Record.declare_eq_ok hr with rfl | ⟨hnone, rfl⟩
    · exact ⟨rfl, hm.tiered i, fun _ _ h => .inl h⟩
    · refine ⟨Machine.parent_setMember _ _ _ _, Record.tiered_setMember (hm.tiered i) fun w hw => ?_,
        fun w x h => ?_⟩
      · rw [hnone] at hw
        cases hw
      · rw [Record.get?_setMember] at h
        split at h
        · rename_i he
          obtain ⟨rfl, rfl⟩ := he
          exact .inr rfl
        · exact .inl h
  obtain ⟨hparent, htiered, hawaits⟩ := hshape
  refine ⟨Machine.onward_setRecord hm hparent htiered fun _ hout => absurd (.head _) hout,
    fun j w x h => ?_⟩
  unfold Machine.Awaits at h
  rw [Machine.record_setRecord] at h
  split at h
  · rename_i hij
    obtain ⟨rfl, -⟩ := hij
    exact (hawaits w x h).imp id fun he => ⟨rfl, he⟩
  · exact .inl h

variable (around) in
/-- To declare members makes these pending at most, and nothing else. -/
theorem declareMembers_onward (i : RecordId) (hm : m.Bound) (body : List Stmt) :
    m.Onward (i :: around) (endOf (declareMembers i body m)) ∧
      ∀ j vis n, (endOf (declareMembers i body m)).Awaits j vis n →
        m.Awaits j vis n ∨ j = i ∧ (n, vis) ∈ body.filterMap declared? := by
  unfold declareMembers
  generalize body.filterMap declared? = names
  let declareOne : Ident × Visibility → Eval PUnit := fun p =>
    change fun m => ((m.record i).declare p.1 p.2).map (m.setRecord i)
  change m.Onward (i :: around) (endOf (names.forM declareOne m)) ∧
    ∀ j vis n, (endOf (names.forM declareOne m)).Awaits j vis n →
      m.Awaits j vis n ∨ j = i ∧ (n, vis) ∈ names
  induction names generalizing m with
  | nil => exact ⟨Machine.onward_refl _ hm, fun _ _ _ h => .inl h⟩
  | cons p names ih =>
    obtain ⟨n, vis⟩ := p
    have hcons : ((n, vis) :: names).forM declareOne =
        (declareOne (n, vis) >>= fun _ => names.forM declareOne) := rfl
    rw [hcons]
    cases hr : (m.record i).declare n vis with
    | error e =>
      have herror : declareOne (n, vis) m = .error e m := change_of_error (by rw [hr]; rfl)
      rw [bind_of_error herror]
      exact ⟨Machine.onward_refl _ hm, fun _ _ _ h => .inl h⟩
    | ok r =>
      have hok : declareOne (n, vis) m = .ok ⟨⟩ (m.setRecord i r) := change_of_ok (by rw [hr]; rfl)
      obtain ⟨honward, hawaits⟩ := declare_onward around hm hr
      obtain ⟨honward', hawaits'⟩ := ih honward.bound
      rw [bind_of_ok hok]
      refine ⟨honward.trans honward', fun j w x hx => ?_⟩
      rcases hawaits' j w x hx with hx | ⟨hj, hx⟩
      · rcases hawaits j w x hx with hx | ⟨hj, hx⟩
        · exact .inl hx
        · exact .inr ⟨hj, hx ▸ .head _⟩
      · exact .inr ⟨hj, .tail _ hx⟩

theorem restore_of_none {old : Previous} (hr : (m.frame c.scope.frame).record = none) :
    restore c n old m =
      if c.scope.frame = c.site.globals then
        old.exported.elim
          ((old.slot.elim (m.eraseSlot c.scope.frame n) (m.setSlot c.scope.frame n)).eraseExport
            c.site.exports n)
          ((old.slot.elim (m.eraseSlot c.scope.frame n) (m.setSlot c.scope.frame n)).setExport
            c.site.exports n)
      else old.slot.elim (m.eraseSlot c.scope.frame n) (m.setSlot c.scope.frame n) := by
  obtain ⟨slot, exported⟩ := old
  unfold restore
  rw [hr]
  cases slot <;> cases exported <;> rfl

/-- What a name meant before is given back; if it was a member, of a module under way. -/
theorem restore_onward (hm : m.Bound) (hc : Placed around m c.scope.frame) {old : Previous}
    (hslot : old.slot ≠ some .pending) : m.Onward around (restore c n old m) := by
  cases hr : (m.frame c.scope.frame).record with
  | some i =>
    unfold restore
    rw [hr]
    exact Machine.onward_defineMember hm i n _ _ (.inl (hc.under i hr))
  | none =>
    rw [restore_of_none hr]
    have hset : m.Calm around
        (old.slot.elim (m.eraseSlot c.scope.frame n) (m.setSlot c.scope.frame n)) := by
      cases hs : old.slot with
      | none => exact Machine.calm_eraseSlot hm _ n
      | some s => exact Machine.calm_setSlot hm _ n fun he => hslot (hs.trans (congrArg some he))
    split
    · cases old.exported with
      | none => exact (hset.trans (calm_eraseExport hset.onward.bound _ n)).onward
      | some v => exact (hset.trans (calm_setExport hset.onward.bound _ n v)).onward
    · exact hset.onward

/-- All members that a body declares get their values from it. -/
theorem body_ends {o : Opened} (hm : S.Ready around m) (hk : m.Calm around k)
    (ho : Entered m c n o k) (hf : Follows S (o.id :: around) self self') (body : List Stmt) :
    S.Ends around m (fun k' v => v = .module o.id o.path ∧ k.Settles k' ∧ k.Onward (o.id :: around) k')
      ((do
        declareMembers o.id body
        let _ ← self.stmts o.inner body
        return .module o.id o.path : Eval Value) k)
      ((do
        declareMembers o.id body
        let _ ← self'.stmts o.inner body
        return .module o.id o.path : Eval Value) k) := by
  have hid : m.records.size ≤ o.id := Nat.le_of_eq ho.id.symm
  obtain ⟨hdeclared, hawaits⟩ := declareMembers_onward around o.id hk.onward.bound body
  cases hd : declareMembers o.id body k with
  | error e k₁ =>
    rw [hd] at hdeclared
    rw [bind_of_error hd, bind_of_error hd]
    exact ⟨fun _ => rfl, onward_inside hk.onward hdeclared hid, fun _ _ he => by cases he⟩
  | ok u k₁ =>
    rw [hd] at hdeclared hawaits
    change k.Onward (o.id :: around) k₁ at hdeclared
    change ∀ j vis n, k₁.Awaits j vis n → k.Awaits j vis n ∨ _ at hawaits
    rw [bind_of_ok hd, bind_of_ok hd]
    have hready : S.Ready (o.id :: around) k₁ := by
      refine ⟨hdeclared.bound, fun i hi => ?_, fun i hi => ?_⟩
      · rcases List.mem_cons.mp hi with rfl | hi
        · exact Nat.lt_of_lt_of_le ho.lt hdeclared.records
        · exact Nat.lt_of_lt_of_le (hm.under i hi)
            (Nat.le_trans hk.onward.records hdeclared.records)
      · by_cases hio : i = o.id
        · exact .inl (hio ▸ .head _)
        · refine (hm.pending i fun hm' => hi fun vis x hx => ?_).imp (.tail _) id
          rcases hawaits i vis x hx with hx | ⟨hij, -⟩
          · exact hm' vis x (hk.settles i vis x hx)
          · exact hio hij
    have hinner : Placed (o.id :: around) k₁ o.inner.scope.frame := by
      refine ⟨Nat.lt_of_lt_of_le ho.frame hdeclared.frames, fun i hi => ?_⟩
      rw [hdeclared.attached _ ho.frame, ho.attached] at hi
      cases hi
      exact .head _
    have hstmts := stmts_tidy hf hinner body
    have hbody := (hstmts.bind (g := fun _ => pure (Value.module o.id o.path))
      (P := fun k' v => v = .module o.id o.path ∧
        ∀ s ∈ body, o.inner.scope.frame < k'.frames.size ∧ Provides o.inner s k')
      fun k' _ _ hall => tidy_pure ⟨rfl, hall⟩) hready
    have hend := onward_inside hk.onward (hdeclared.trans hbody.onward) hid
    refine ⟨fun hs => hbody.same (hs.later (Nat.le_trans hk.onward.records hdeclared.records)),
      hend, fun v k' he => ?_⟩
    obtain ⟨hs, hv, hall⟩ := hbody.settles v k' he
    have honward := hdeclared.trans hbody.onward
    rw [he] at honward
    change k.Onward (o.id :: around) k' at honward
    have hsettles : k.Settles k' := by
      intro i vis x hx
      rcases hawaits i vis x (hs i vis x hx) with hx | ⟨rfl, hx'⟩
      · exact hx
      · obtain ⟨s, hin, hdecl⟩ := List.mem_filterMap.mp hx'
        refine absurd hx ((hall s hin).2 x vis o.id hdecl ?_ vis)
        rw [honward.attached _ ho.frame, ho.attached]
    exact ⟨hk.settles.trans hsettles, hv, hsettles, honward⟩

theorem module_tidy {isPublic : Bool} {body : List Stmt} {l : Location}
    (hf : Follows S (m.records.size :: around) self self') (hc : Placed around m c.scope.frame) :
    S.Tidy around m (Done m (.eval c (.module l isPublic n body)))
      (declareModule self c isPublic n body) (declareModule self' c isPublic n body) := by
  intro hm
  obtain ⟨hcalm, hentered⟩ := openModule_calm isPublic n hm.bound hc
  unfold declareModule
  cases hopen : openModule c isPublic n m with
  | error e k =>
    rw [hopen] at hcalm
    rw [bind_of_error hopen, bind_of_error hopen]
    exact ⟨fun _ => rfl, hcalm.onward, fun _ _ he => by cases he⟩
  | ok o k =>
    rw [hopen] at hcalm
    change m.Calm around k at hcalm
    have ho := hentered o k hopen
    rw [bind_of_ok hopen, bind_of_ok hopen]
    have hbody := (body_ends hm hcalm ho (ho.id ▸ hf) body).mending hm.under
      (f := fun k => restore c n o.old (k.removeModule o.path)) fun k' hk' => ?_
    · refine ⟨hbody.same, hbody.onward, fun v k' he => ?_⟩
      obtain ⟨hs, hv, hsettles, honward⟩ := hbody.settles v k' he
      have hlt : m.records.size < k'.records.size :=
        ho.id ▸ Nat.lt_of_lt_of_le ho.lt honward.records
      refine ⟨hs, ?_, fun _ => ⟨hlt, o.path, by rw [hv, ho.id]⟩⟩
      rintro _ _ ⟨⟩ x vis i hx hi w hw
      cases hx
      have hframe : c.scope.frame < k.frames.size :=
        Nat.lt_of_lt_of_le hc.frame hcalm.onward.frames
      rw [honward.attached _ hframe] at hi
      exact ho.provides i hi w (hsettles i w n hw)
    · have hremoved : k'.Calm around (k'.removeModule o.path) :=
        Machine.calm_of_eq hk'.bound rfl rfl
      exact hremoved.onward.trans
        (restore_onward hremoved.onward.bound ((hc.later hk').later hremoved.onward) ho.slot)

end Survey

end ModuleScript
