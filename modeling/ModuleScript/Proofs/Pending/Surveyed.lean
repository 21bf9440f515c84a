import ModuleScript.Proofs.Modules.Runs
import ModuleScript.Proofs.NormalForm
import ModuleScript.Proofs.Pending.Runs

/-!
# Nothing is left pending

While code runs, members are pending only in modules whose declarations are under way or have failed.
A module whose declaration has ended well has no pending members from then on, and no module below it
has any.
-/

set_option autoImplicit false

namespace ModuleScript

open Eval Session

/-- No frame binds a name to nothing, and only these modules have pending members. -/
structure Machine.Confines (P : RecordId → Prop) (m : Machine) : Prop where
  slots : ∀ f n, (n, .pending) ∉ (m.frame f).bindings
  pending : ∀ i, ¬ m.Initialized i → P i

/-- There is such a module, and no member of it or of a module below it is pending. -/
def Machine.Finished (m : Machine) (i : RecordId) : Prop := i < m.records.size ∧ m.Complete i

namespace Survey

variable {S : Survey} {around : List RecordId} {self self' : Step} {m k : Machine} {c : Context}
  {h : Host} {t : Task} {r : Outcome}

/-! ## Steps -/

theorem done_of_silent {v : Value} (ht : t.isModule = false)
    (hs : ∀ c s, t.node? = some (c, s) → declared? s = none) : Done m t k v := by
  refine ⟨fun c s he => ?_, fun hmodule => ?_⟩
  · intro n vis i hn
    rw [hs c s he] at hn
    cases hn
  · rw [ht] at hmodule
    cases hmodule

theorem Always.done {x y : Eval Value} (hx : S.Always around x y) (ht : t.isModule = false)
    (hs : ∀ c s, t.node? = some (c, s) → declared? s = none) : S.Tidy around m (Done m t) x y :=
  (hx m).imp fun _ _ _ _ => done_of_silent ht hs

theorem expr_tidy (hf : Follows S around self self') (c : Context) (e : Expr) :
    S.Tidy around m (Done m (.eval c (.expr e))) (expr self c e) (expr self' c e) := by
  have hall := Habit.expr (habit_follows hf) c e
  cases e with
  | binding l n initializer => exact binding_tidy hf rfl rfl
  | _ => exact Always.done hall rfl fun _ _ he => by cases he; rfl

theorem stmt_tidy (hf : Follows S around self self') {s : Stmt} (hs : s.isModule = false) :
    S.Tidy around m (Done m (.eval c s)) (stmt h self c s) (stmt h self' c s) := by
  cases s with
  | expr e => exact expr_tidy hf c e
  | publicBinding l n initializer => exact binding_tidy hf rfl rfl
  | variation l n l' params body =>
    exact (always_vary c n _).done rfl fun _ _ he => by cases he; rfl
  | module l isPublic n body => cases hs
  | imports l names path =>
    have himports : S.Always around (imports h self c names path) (imports h self' c names path) :=
      (always_load hf path c.site.source).bind fun e =>
        (Habit.bindImports (H := S.habit around) c path e names).bind fun _ =>
          always_reads (reads_pure Value.unit)
    exact himports.done rfl fun _ _ he => by cases he; rfl

theorem node_tidy {s : Stmt} (hf : Follows S ((Task.eval c s).makes m ++ around) self self')
    (ht : Fits around m (.eval c s)) :
    S.Tidy around m (Done m (.eval c s)) (step h self (.eval c s)) (step h self' (.eval c s)) := by
  have hbelow := hf.below h (.node s.construct s.location)
  have hmakes : (Task.eval c s).makes m = if s.isModule then [m.records.size] else [] := rfl
  rw [hmakes] at hbelow
  cases hmodule : s.isModule with
  | true =>
    rw [hmodule] at hbelow
    cases s with
    | module l isPublic n body => exact (module_tidy hbelow (ht hmodule)).located h l
    | _ => cases hmodule
  | false =>
    rw [hmodule] at hbelow
    exact (stmt_tidy hbelow hmodule).located h s.location

/-- Below a task there are the modules around it and the one that it makes. -/
theorem step_tidy (hf : Follows S (t.makes m ++ around) self self') (ht : Fits around m t) :
    S.Tidy around m (Done m t) (step h self t) (step h self' t) := by
  cases t with
  | eval c s => exact node_tidy hf ht
  | apply site f args =>
    have happly := Habit.applyValue (habit_follows (hf.below h (.apply args.length))) site f args
    exact happly.done rfl fun _ _ he => by cases he
  | ask d =>
    have hask : S.Always around (step h self (.ask d)) (step h self' (.ask d)) :=
      fun m => tidy_lift_bind fun _ _ => tidy_pure trivial
    exact hask.done rfl fun _ _ he => by cases he
  | wait t =>
    exact (hf m t ht).imp fun _ _ _ hd => ⟨hd.provides, hd.makes⟩

/-! ## Runs -/

/-- How tasks begin and end: members are pending only in modules whose declarations are under way or
that are left so; after a failure, in modules made since as well. A declaration that ends well has
made a module that is complete and passes the test. -/
structure Check (S : Survey) (around : List RecordId) (t : Task) (m : Machine) (r : Outcome) :
    Prop where
  begins : m.Confines fun i => i ∈ around ∨ S.left i
  ends : ∀ v k, r = .ok v k → k.Confines fun i => i ∈ around ∨ S.left i
  fails : ∀ e k, r = .error e k →
    k.Confines fun i => (i ∈ around ∨ S.left i) ∨ m.records.size ≤ i
  declares : t.isModule = true → ∀ v k, r = .ok v k →
    ∃ p, v = .module m.records.size p ∧ k.Finished m.records.size ∧ S.passes m.records.size

theorem check_of_ends {r' : Outcome} (hm : S.Ready around m)
    (hr : S.Ends around m (Done m t) r r') (hs : S.Spares m (endOf r')) :
    S.Check around t m r' := by
  refine ⟨⟨hm.bound.slots, hm.pending⟩, ?_, ?_, ?_⟩
  · rintro v k rfl
    obtain ⟨hsettles, -⟩ := hr.settles v k rfl
    exact ⟨hr.onward.bound.slots, (hm.next hr.onward hsettles).pending⟩
  · rintro e k rfl
    refine ⟨hr.onward.bound.slots, fun i hi => ?_⟩
    by_cases hlt : i < m.records.size
    · by_cases hin : i ∈ around
      · exact .inl (.inl hin)
      · exact .inl (hm.pending i fun hinit => hi fun vis n hn =>
          hinit vis n (hr.onward.kept i hlt hin vis n hn))
    · exact .inr (Nat.le_of_not_lt hlt)
  · rintro ht v k rfl
    obtain ⟨hsettles, hdone⟩ := hr.settles v k rfl
    obtain ⟨hlt, p, hv⟩ := hdone.makes ht
    have hcomplete : k.Complete m.records.size := fun j hj vis n hn =>
      Nat.not_lt_of_le (hr.onward.bound.le_of_below hj) (hsettles j vis n hn).lt
    exact ⟨p, hv, ⟨hlt, hcomplete⟩, hs _ (Nat.le_refl _) hlt hcomplete⟩

theorem surveyed_follows {check : List RecordId → Task → Machine → Outcome → Prop}
    (hcheck : ∀ around t m r, S.Ready around m → Fits around m t → S.Check around t m r →
      check around t m r) (h : Host) (alarm : Step) (depth : Nat) (around : List RecordId) :
    Follows S around (surveyed h check alarm depth around) (run h depth) := by
  induction depth generalizing around with
  | zero => exact fun m t _ => tidy_reads (reads_throw _) fun _ he => by cases he
  | succ depth ih =>
    intro m t ht hm
    have hstep := step_tidy (h := h) (ih (t.makes m ++ around)) ht hm
    refine ⟨fun hs => ?_, hstep.onward, hstep.settles⟩
    have hsame := hstep.same hs
    have hpasses : check around t m
        (step h (surveyed h check alarm depth (t.makes m ++ around)) t m) := by
      rw [hsame]
      exact hcheck around t m _ hm ht (check_of_ends hm hstep hs)
    exact (if_pos hpasses).trans hsame

/-- A check that does not look at the modules around is one of how tasks end. -/
theorem vetted_eq_surveyed (h : Host) (check : Task → Machine → Outcome → Prop) (alarm : Step)
    (depth : Nat) (around : List RecordId) :
    vetted h check alarm depth = surveyed h (fun _ => check) alarm depth around := by
  induction depth generalizing around with
  | zero => rfl
  | succ depth ih =>
    funext t m
    unfold vetted surveyed
    rw [← ih]

/-- A declaration that ends well has made a module that is finished on the given machine. -/
def Finishes (final : Machine) (t : Task) (m : Machine) (r : Outcome) : Prop :=
  t.isModule = true → ∀ v k, r = .ok v k → final.Finished m.records.size

/-- What is observed of a task in a session: how it begins and ends, and that the modules whose
declarations have ended well in the course of it, whatever depth it is given, are finished at its
end, and so is the module that it has made itself at the end of the command. -/
structure Observed (h : Host) (left : RecordId → Prop) (final : Machine) (around : List RecordId)
    (t : Task) (m : Machine) (r : Outcome) : Prop where
  check : Check ⟨left, final.Finished⟩ around t m r
  keeps : ∀ depth, AllEnd h depth (Finishes (endOf (run h depth t m))) (fun self => self t) m

theorem observed_of_check {left : RecordId → Prop} {final : Machine}
    (hm : Ready ⟨left, final.Finished⟩ around m) (ht : Fits around m t)
    (hc : Check ⟨left, final.Finished⟩ around t m r) : Observed h left final around t m r := by
  refine ⟨hc, fun depth alarm => ?_⟩
  let S : Survey := ⟨left, (endOf (run h depth t m)).Finished⟩
  have hf : Follows S around (vetted h (Finishes (endOf (run h depth t m))) alarm depth)
      (run h depth) := by
    rw [vetted_eq_surveyed h _ alarm depth around]
    refine surveyed_follows (fun _ _ _ _ _ _ hcheck hmodule v k he => ?_) h alarm depth around
    obtain ⟨-, -, -, hpasses⟩ := hcheck.declares hmodule v k he
    exact hpasses
  exact (hf m t ht ⟨hm.bound, hm.under, hm.pending⟩).same fun _ _ hlt hc =>
    ⟨hlt, hc⟩

/-! ## Commands -/

theorem execute_tidy (hf : Follows S around self self') (source : Text) {globals : FrameId}
    (hg : Placed around m globals) (outer : List FrameId) (program : Program) :
    S.Tidy around m (fun _ _ => True) (execute self source globals outer program)
      (execute self' source globals outer program) := by
  have hsite : S.Tidy around m (fun k s => Placed around k s.globals) (newSite source globals)
      (newSite source globals) := by
    refine tidy_own fun hm => ⟨Machine.calm_of_eq hm rfl rfl, fun s k he => ?_⟩
    cases he
    exact ⟨hg.frame, hg.under⟩
  refine hsite.bind fun k s _ hs => ?_
  exact (stmts_tidy hf (c := top s outer) hs program).bind fun _ _ _ _ => tidy_pure trivial

theorem guarded_tidy {α : Type} {Q : Machine → α → Prop} {x y : Eval α}
    (hx : S.Tidy around m Q x y) (h : Host) :
    S.Tidy around m Q (guarded h x) (guarded h y) := by
  intro hm
  unfold guarded
  split
  · exact ⟨fun _ => rfl, Machine.onward_refl around hm.bound, fun _ _ he => by cases he⟩
  · obtain ⟨hsame, honward, hok⟩ := hx hm
    cases hy : y m with
    | ok a k =>
      rw [hy] at hsame honward
      exact ⟨fun hs => by rw [hsame hs], honward, fun b n he => hok b n (hy.trans he)⟩
    | error e k =>
      rw [hy] at hsame honward
      cases e <;> exact ⟨fun hs => by rw [hsame hs], honward, fun _ _ he => by cases he⟩

theorem perform_tidy (hf : Follows S around self self') (hg : Placed around m globalFrame)
    (command : Command) :
    S.Tidy around m (fun _ _ => True) (command.perform h self) (command.perform h self') := by
  cases command with
  | source name text =>
    refine tidy_lift_bind fun program _ => ?_
    exact (guarded_tidy (execute_tidy hf name hg _ program) h).bind fun _ _ _ _ => tidy_pure trivial
  | file name =>
    unfold Command.perform
    dsimp only
    generalize h.disk.directory.resolve (Path.ofText name) = resolved
    refine tidy_lift_bind fun text _ => ?_
    refine (always_beginLoading resolved m).bind fun k _ hk _ => ?_
    have hprogram : S.Tidy around k (fun _ _ => True) (fileProgram h self name text)
        (fileProgram h self' name text) :=
      tidy_lift_bind fun program _ => guarded_tidy (execute_tidy hf _ (hg.later hk) _ program) h
    have hmend : S.Tidy around k (fun _ _ => True)
        (mending (fileProgram h self name text) (·.abortLoading resolved))
        (mending (fileProgram h self' name text) (·.abortLoading resolved)) := fun hready =>
      (hprogram hready).mending hready.under fun _ hk' => onward_abortLoading hk'.bound resolved
    refine hmend.bind fun k' r _ _ => ?_
    exact (always_finishLoading resolved (·.exportsOf r.2) k').bind fun _ _ _ _ => tidy_pure trivial

/-! ## Sessions -/

theorem blank_bound (input : Text) : (blank input).Bound := by
  refine ⟨fun f n hn => ?_, fun i => ?_, fun f i hi => ?_, fun i j hp => ?_⟩
  · rcases frame_blank input f with he | he
    · rw [he] at hn
      obtain ⟨_, -, hk⟩ := List.mem_map.mp hn
      cases hk
    · rw [he] at hn
      cases hn
  · exact (ModuleTable.blank_wellFormed input).tiered i
  · rw [record_blank] at hi
    cases hi
  · rw [Machine.record_of_le (Nat.zero_le i)] at hp
    cases hp

/-- The prelude declares no modules, so nothing is pending however its load ends. -/
theorem calm_bindsFunction {s : Stmt} (hs : NormalForm.bindsFunction s = true) (h : Host)
    (depth : Nat) (c : Context) (hm : m.Bound) :
    m.Calm around (endOf (run h depth (.eval c s) m)) := by
  unfold NormalForm.bindsFunction at hs
  split at hs
  · rename_i l n l' o ps body
    cases depth with
    | zero => exact Machine.calm_refl around hm
    | succ depth =>
      change m.Calm around (endOf (located h l ((run h depth).below h (.node .binding l)
        (.eval c (.expr (.lambda l' o ps body))) >>= fun v =>
          define c n v false >>= fun _ => pure v) m))
      rw [endOf_located, below_run]
      generalize depth - _ = rest
      cases rest with
      | zero => exact Machine.calm_refl around hm
      | succ rest =>
        have hmade : m.Calm around { m with functions := m.functions + 1 } :=
          Machine.calm_of_eq hm rfl rfl
        exact hmade.trans (calm_define hmade.onward.bound c n _ false)
  · cases hs

theorem calm_stmts {ss : List Stmt} (hs : ∀ s ∈ ss, ∀ m : Machine, m.Bound →
      m.Calm around (endOf (self (.eval c s) m))) (hm : m.Bound) :
    m.Calm around (endOf (self.stmts c ss m)) := by
  unfold Step.stmts
  generalize Value.unit = v
  induction ss generalizing m v with
  | nil => exact Machine.calm_refl around hm
  | cons s ss ih =>
    have hfirst := hs s (.head _) m hm
    rw [List.foldlM_cons]
    cases he : self (.eval c s) m with
    | error e k =>
      rw [he] at hfirst
      rw [bind_of_error he]
      exact hfirst
    | ok u k =>
      rw [he] at hfirst
      rw [bind_of_ok he]
      exact hfirst.trans (ih (fun t ht => hs t (.tail _ ht)) hfirst.onward.bound u)

theorem start_calm (h : Host) (input : Text) :
    (blank input).Calm [] (start h input).machine := by
  have hblank := blank_bound input
  have hsite : (blank input).Calm []
      { blank input with exports := (blank input).exports.push [] } :=
    Machine.calm_of_eq hblank rfl rfl
  rw [start_machine]
  split
  · cases hr : h.read "<prelude>" preludeSource with
    | error e =>
      rw [endOf_loadPrelude_of_error hr]
      exact Machine.calm_refl [] hblank
    | ok program =>
      rw [endOf_loadPrelude hr]
      refine hsite.trans (calm_stmts (fun s hs m hm => ?_) hsite.onward.bound)
      exact calm_bindsFunction (NormalForm.prelude_bindsFunctions hr s hs) h h.ownDepth _ hm
  · exact Machine.calm_refl [] hblank

/-- A machine as sessions leave it between commands. -/
structure Idle (m : Machine) : Prop where
  bound : m.Bound
  placed : Placed [] m globalFrame

theorem Idle.later (hm : Idle m) (hk : m.Onward [] k) : Idle k :=
  ⟨hk.bound, hm.placed.later hk⟩

theorem start_idle (h : Host) (input : Text) : Idle (start h input).machine := by
  have hplaced : Placed [] (blank input) globalFrame := by
    refine ⟨Nat.lt_succ_self globalFrame, fun i hi => ?_⟩
    rw [record_blank] at hi
    cases hi
  have hcalm := start_calm h input
  exact ⟨hcalm.onward.bound, hplaced.later hcalm.onward⟩

theorem Idle.ready (hm : Idle m) {left : RecordId → Prop} (hl : ∀ i, ¬ m.Initialized i → left i)
    (passes : RecordId → Prop) : Ready ⟨left, passes⟩ [] m :=
  ⟨hm.bound, List.forall_mem_nil _, fun i hi => .inr (hl i hi)⟩

section Session

variable (h : Host) (input : Text) (history : List Command) (command : Command)

/-- How a command ends on a machine between commands. -/
theorem perform_ends (hm : Idle m) (S : Survey) (hl : ∀ i, ¬ m.Initialized i → S.left i)
    {p : List RecordId → Task → Machine → Outcome → Prop}
    (hp : ∀ around t m r, S.Ready around m → Fits around m t → S.Check around t m r →
      p around t m r) (alarm : Step) :
    S.Ends [] m (fun _ _ => True) (command.perform h (surveyed h p alarm h.depth []) m)
      (command.perform h h.runner m) :=
  perform_tidy (surveyed_follows hp h alarm h.depth []) hm.placed command
    (hm.ready hl S.passes)

theorem perform_onward (hm : Idle m) : m.Onward [] (endOf (command.perform h h.runner m)) :=
  (perform_ends h command hm ⟨fun _ => True, fun _ => True⟩ (fun _ _ => trivial)
    (fun _ _ _ _ _ _ => id) h.runner).onward

theorem after_idle : Idle (after h input history).machine := by
  induction history using List.reverseRecOn with
  | nil => exact start_idle h input
  | append_singleton history command ih =>
    rw [after_machine]
    exact ih.later (perform_onward h command ih)

theorem after_onward (later : List Command) :
    (after h input history).machine.Onward [] (after h input (history ++ later)).machine := by
  induction later using List.reverseRecOn with
  | nil =>
    rw [List.append_nil]
    exact Machine.onward_refl [] (after_idle h input history).bound
  | append_singleton later command ih =>
    rw [← List.append_assoc, after_machine]
    exact ih.trans (perform_onward h command (after_idle h input (history ++ later)))

/-- The module was made by a command that failed, and no declaration of it has ended well. -/
def Abandoned (i : RecordId) : Prop :=
  ∃ before command rest, history = before ++ command :: rest ∧
    (after h input before).machine.records.size ≤ i ∧
    i < (after h input (before ++ [command])).machine.records.size ∧
    (∃ e k, command.perform h h.runner (after h input before).machine = .error e k) ∧
    AllEnd h h.depth (fun t m r => t.isModule = true → ∀ v k, r = .ok v k → m.records.size ≠ i)
      (command.perform h) (after h input before).machine

variable {h input history} in
theorem Abandoned.longer {i : RecordId} (hi : Abandoned h input history i) :
    Abandoned h input (history ++ [command]) i := by
  obtain ⟨before, failed, rest, rfl, hmade⟩ := hi
  exact ⟨before, failed, rest ++ [command], by rw [List.append_assoc, List.cons_append], hmade⟩

/-- What a command leaves pending in modules that it has made, it leaves because it failed before
their declarations had ended. -/
theorem abandoned_of_made {i : RecordId}
    (hsize : (after h input history).machine.records.size ≤ i)
    (hi : ¬ (after h input (history ++ [command])).machine.Initialized i) :
    Abandoned h input (history ++ [command]) i := by
  have hidle := after_idle h input history
  have hafter := after_machine h input history command
  have hends := perform_ends h command hidle ⟨fun _ => True, (· ≠ i)⟩ (fun _ _ => trivial)
    (p := fun _ t m r => t.isModule = true → ∀ v k, r = .ok v k → m.records.size ≠ i)
    (fun _ _ _ _ _ _ hcheck hmodule v k he => by
      obtain ⟨-, -, -, hpasses⟩ := hcheck.declares hmodule v k he
      exact hpasses)
  rw [hafter] at hi
  refine ⟨history, command, [], rfl, hsize, ?_, ?_, fun alarm => ?_⟩
  · rw [hafter]
    exact Nat.lt_of_not_le fun hle => hi (Machine.initialized_of_le hle)
  · cases hr : command.perform h h.runner (after h input history).machine with
    | error e k => exact ⟨e, k, rfl⟩
    | ok v k =>
      obtain ⟨hsettles, -⟩ := (hends h.runner).settles v k hr
      rw [hr] at hi
      exact absurd (initialized_of_settles hsettles (Machine.initialized_of_le hsize)) hi
  · rw [vetted_eq_surveyed h _ alarm h.depth []]
    refine (hends alarm).same fun j _ _ hj hji => hi ?_
    rw [← hji]
    exact hj j .refl

theorem after_confines : (after h input history).machine.Confines (Abandoned h input history) := by
  refine ⟨(after_idle h input history).bound.slots, ?_⟩
  induction history using List.reverseRecOn with
  | nil =>
    intro i hi
    exact absurd (initialized_of_settles (start_calm h input).settles
      (Machine.initialized_of_le (Nat.zero_le i))) hi
  | append_singleton history command ih =>
    intro i hi
    rcases Nat.lt_or_ge i (after h input history).machine.records.size with hlt | hsize
    · refine (ih i fun hinit => hi fun vis n hn => hinit vis n ?_).longer command
      exact (after_onward h input history [command]).kept i hlt List.not_mem_nil vis n hn
    · exact abandoned_of_made h input history command hsize hi

/-- In a session, members are pending only in modules whose declarations are under way, or that a
command has made and, because it failed, left unfinished; and nothing else is. At the beginning and
end of every task that a command performs, and between commands. A declaration that ends well has made
a module that is finished then and at the end of every task around it and of the command, and modules
that are finished after a command are so after all later ones. -/
theorem pending_confined :
    (after h input history).machine.Confines (Abandoned h input history) ∧
      (∀ alarm, command.perform h (surveyed h
          (Observed h (Abandoned h input history) (after h input (history ++ [command])).machine)
          alarm h.depth []) (after h input history).machine =
        command.perform h h.runner (after h input history).machine) ∧
      ∀ i, (after h input history).machine.Finished i → ∀ later,
        (after h input (history ++ later)).machine.Finished i := by
  have hidle := after_idle h input history
  refine ⟨after_confines h input history, fun alarm => ?_, fun i ⟨hlt, hc⟩ later => ?_⟩
  · rw [after_machine]
    refine (perform_ends h command hidle ⟨_, _⟩ (after_confines h input history).pending
      (fun around t m r => observed_of_check) alarm).same fun i _ hlt hc => ⟨hlt, hc⟩
  · have honward := after_onward h input history later
    exact ⟨Nat.lt_of_lt_of_le hlt honward.records,
      honward.complete hidle.bound hlt (List.forall_mem_nil _) hc⟩

end Session

end Survey

end ModuleScript
