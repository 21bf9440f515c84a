import ModuleScript.Proofs.Congruence.Limits
import ModuleScript.Proofs.Excerpts.Shown
import ModuleScript.Proofs.Raising.Commands

/-!
# Reports have the place of the innermost node

A task that fails although all tasks that it hands on succeed raises the failure itself; otherwise what
it fails with has been raised in a task that it hands on. Followed downwards, this leads to the
innermost node under evaluation. It places what is raised there: only what is wrong in the text of an
imported file has a place before. Nothing around it changes a report that has a place.
-/

set_option autoImplicit false

namespace ModuleScript

open Eval Session

/-! ## Innermost nodes -/

namespace Eval

variable {α : Type}

open Classical in
/-- Hands on tasks that pass the check; the others go to `alarm`. -/
noncomputable def checked (check : Task → Machine → Prop) (alarm self : Step) : Step :=
  fun t m => if check t m then self t m else alarm t m

/-- Every task that a computation hands on passes the check on the machine it is performed on, since
no alarm can make a difference. -/
def HandsOn (self : Step) (check : Task → Machine → Prop) (x : Step → Eval α) (m : Machine) :
    Prop :=
  ∀ alarm, x (checked check alarm self) m = x self m

end Eval

/-- A node that is evaluated, and how many levels of tasks there may be below it. -/
structure Visit where
  depth : Nat
  context : Context
  statement : Stmt
  machine : Machine

namespace Visit

def location (v : Visit) : Location := v.statement.location

/-- The evaluation of the node ends with the report. -/
def EndsWith (h : Host) (v : Visit) (r : Report) : Prop :=
  ∃ k, run h (v.depth + 1) (.eval v.context v.statement) v.machine = .error (.report r) k

/-- The node imports a file with this text. -/
def Imports (h : Host) (v : Visit) (p : Path) (text : Text) : Prop :=
  ∃ l names path, v.statement = .imports l names path ∧
    h.disk.resolveImport path v.context.site.source = .ok p ∧ h.disk.readText p = .ok text

end Visit

/-- The node that a task evaluates, or else the one around it. -/
def Task.node (depth : Nat) (m : Machine) (around : Option Visit) : Task → Option Visit
  | .eval c s => some ⟨depth, c, s, m⟩
  | _ => around

def Succeeds (h : Host) (depth : Nat) (t : Task) (m : Machine) : Prop :=
  ∃ v k, run h depth t m = .ok v k

/-- What a computation at the node `here` fails with is raised at a node with the property: at `here`
itself, if all tasks that it hands on succeed, and otherwise in those that do not. -/
structure RaisedIn {α : Type} (h : Host) (P : Visit → Prop) (depth : Nat) (here : Option Visit)
    (raised : Task → Machine → Prop) (x : Step → Eval α) (m : Machine) : Prop where
  own : HandsOn (run h depth) (Succeeds h depth) x m → ∃ v ∈ here, P v
  handed : HandsOn (run h depth) (fun t k => Succeeds h depth t k ∨ raised t k) x m

/-- The innermost node under evaluation when the task fails has the property. -/
def Innermost (h : Host) (P : Visit → Prop) : Nat → Option Visit → Task → Machine → Prop
  | 0, around, _, _ => ∃ v ∈ around, P v
  | depth + 1, around, t, m =>
    RaisedIn h P depth (t.node depth m around)
      (Innermost h P depth (t.node depth m around)) (fun self => inside h self t) m

section Innermost

variable {α : Type} {h : Host} {P : Visit → Prop} {depth : Nat} {around here : Option Visit} {t : Task}
  {m : Machine} {x : Step → Eval α}

theorem RaisedIn.false_of_none {raised : Task → Machine → Prop} (hP : ∀ v, ¬ P v)
    (hraised : ∀ t k, ¬ raised t k) (hx : RaisedIn h P depth here raised x m) : False := by
  have hcheck : (fun t k => Succeeds h depth t k ∨ raised t k) = Succeeds h depth := by
    funext t k
    simp [hraised]
  have hhanded := hx.handed
  rw [hcheck] at hhanded
  obtain ⟨v, -, hv⟩ := hx.own hhanded
  exact hP v hv

theorem not_innermost (hP : ∀ v, ¬ P v) (depth : Nat) (around : Option Visit) (t : Task)
    (m : Machine) : ¬ Innermost h P depth around t m := by
  induction depth generalizing around t m with
  | zero =>
    rintro ⟨v, -, hv⟩
    exact hP v hv
  | succ depth ih => exact fun hx => hx.false_of_none hP fun t k => ih _ t k

/-- There is an innermost node. -/
theorem RaisedIn.exists_node (hx : RaisedIn h P depth here (Innermost h P depth here) x m) :
    ∃ v, P v := by
  refine Classical.byContradiction fun hnone => ?_
  have hP : ∀ v, ¬ P v := fun v hv => hnone ⟨v, hv⟩
  exact hx.false_of_none hP fun t k => not_innermost hP depth here t k

end Innermost

/-! ## Places -/

/-- The report has the place that it must have if the node is the innermost one. -/
inductive Visit.Places (h : Host) (v : Visit) : Report → Prop where
  /-- What is raised at a node is located there. -/
  | node {r : Report} : r.location = none →
      Places h v (r.locate v.location (h.excerptAt v.location))
  /-- What is wrong in the text of an imported file is located in it. -/
  | file {r : Report} {p : Path} {text : Text} {l : Location} : v.Imports h p text →
      h.read p.text text = .error (.report r) → r.location = some l → l.file = p.text →
      Places h v r
  /-- That an imported file ends too early is located at the import. -/
  | ending {p : Path} {text : Text} : v.Imports h p text →
      h.read p.text text = .error (.report Cause.unexpectedEnd.report) →
      Places h v (Cause.unexpectedEnd.report.locate v.location (h.excerptAt v.location))

/-- What comes out at the node is the report, which has the place that it must have if the node is the
innermost one. -/
structure Visit.Raises (h : Host) (r : Report) (v : Visit) : Prop where
  ends : v.EndsWith h r
  places : v.Places h r

/-- The report with the place of the node around, unless it has one. -/
def Report.placedAt (h : Host) (r : Report) : Option Visit → Report
  | none => r
  | some v => r.locate v.location (h.excerptAt v.location)

theorem Report.placedAt_of_location {r : Report} (hr : r.location ≠ none) (h : Host)
    (around : Option Visit) : r.placedAt h around = r := by
  cases around with
  | none => rfl
  | some v => exact r.locate_of_location hr _ _

/-- A text that is refused is refused for something in it, or because it ends too early. -/
theorem location_of_read {h : Host} {file text : Text} {r : Report}
    (hr : h.read file text = .error (.report r)) :
    (∃ l, r.location = some l ∧ l.file = file) ∨ r = Cause.unexpectedEnd.report := by
  obtain ⟨r₀, hprogram, rfl⟩ := report_of_read hr
  rcases objection_of_readProgram hprogram with hobjection | hstop
  · cases hobjection with
    | unexpected ht => exact .inl ⟨_, rfl, file_of_mem_tokenize ht⟩
    | construct ht hl => exact .inl ⟨_, hl, file_of_mem_tokenize ht⟩
    | unexpectedEnd => exact .inr rfl
  · have hscan : (Scan.tokensFrom 0 (Location.start file) text).2 = some (.report r₀) := hstop
    obtain ⟨cause, l, rest, rfl, hfinds⟩ := Scan.finds_of_stop hscan
    exact .inl ⟨l, rfl, hfinds.file⟩

theorem located_eq_report {α : Type} {h : Host} {l : Location} {x : Eval α} {r : Report}
    {m k : Machine} (he : located h l x m = .error (.report r) k) :
    ∃ r₀, x m = .error (.report r₀) k ∧ r = r₀.locate l (h.excerptAt l) := by
  obtain ⟨e, hx, hr⟩ := located_eq_placed he
  cases e with
  | report r₀ =>
    cases hr
    exact ⟨r₀, hx, rfl⟩
  | fault | tooDeep => cases hr

/-! ## What a task raises itself -/

/-- The failure is that the text of the file that the task imports cannot be read. -/
def Task.Misreads (h : Host) (t : Task) (e : Failure) : Prop :=
  ∃ c l names path p text, t = .eval c (.imports l names path) ∧
    h.disk.resolveImport path c.site.source = .ok p ∧ h.disk.readText p = .ok text ∧
    h.read p.text text = .error e

variable {α : Type} {h : Host} {depth : Nat} {around here : Option Visit} {self : Step} {t : Task}
  {m k : Machine} {r r₀ : Report}

/-- A task raises reports without a place itself, but for those of reading a file. -/
theorem fails_inside {P : Failure → Prop} (hP : ∀ e : Failure, e.unplaced = e → P e)
    (hself : (failing P hP).Follows self self) (ht : ∀ e, t.Misreads h e → P e) :
    Fails P (inside h self t) := by
  refine Congruence.inside (C := failing P hP) hself fun c l names path he => ?_
  refine (failing_brackets hP).load (Congruence.Follows.below hself h _) fun {p} hp text htext => ?_
  exact fails_lift fun e hr => ht e ⟨c, l, names, path, p, text, he, hp, htext, hr⟩

/-- Hands on the tasks that succeed only. -/
noncomputable abbrev succeeding (h : Host) (depth : Nat) : Step :=
  checked (Succeeds h depth) (fun _ => throw .tooDeep) (run h depth)

theorem succeeding_follows {P : Failure → Prop} (hP : ∀ e : Failure, e.unplaced = e → P e)
    (h : Host) (depth : Nat) :
    (failing P hP).Follows (succeeding h depth) (succeeding h depth) := by
  intro t m e k he
  unfold succeeding checked at he
  split at he
  · rename_i hs
    obtain ⟨v, k', hk⟩ := hs
    rw [hk] at he
    cases he
  · cases he
    exact hP .tooDeep rfl

theorem location_of_unplaced (he : (Failure.report r).unplaced = .report r) : r.location = none :=
  (congrArg Report.location (Failure.report.inj he)).symm

theorem own_report (hown : HandsOn (run h depth) (Succeeds h depth) (fun self => inside h self t) m)
    (he : inside h (run h depth) t m = .error (.report r) k) :
    r.location = none ∨ t.Misreads h (.report r) := by
  have hsame := (hown fun _ => throw .tooDeep).trans he
  have hP : ∀ e : Failure, e.unplaced = e → e.unplaced = e ∨ t.Misreads h e := fun _ => .inl
  rcases fails_inside hP (succeeding_follows hP h depth) (fun _ => .inr) m _ k hsame with hbare | hr
  · exact .inl (location_of_unplaced hbare)
  · exact .inr hr

theorem raises_of_own (hr : r.location ≠ none)
    (hown : HandsOn (run h depth) (Succeeds h depth) (fun self => inside h self t) m)
    (he : inside h (run h depth) t m = .error (.report r₀) k)
    (hplaced : r₀.placedAt h (t.node depth m around) = r)
    (hends : ∀ v ∈ t.node depth m around, v.EndsWith h r) :
    ∃ v ∈ t.node depth m around, v.Raises h r := by
  rcases own_report hown he with hnone | ⟨c, l, names, path, p, text, rfl, hp, htext, hread⟩
  · generalize t.node depth m around = here at hplaced hends
    cases here with
    | none =>
      rw [← hplaced] at hr
      exact absurd hnone hr
    | some v => exact ⟨v, rfl, hends v rfl, hplaced ▸ .node hnone⟩
  · refine ⟨_, rfl, hends _ rfl, ?_⟩
    have himports : Visit.Imports h ⟨depth, c, .imports l names path, m⟩ p text :=
      ⟨l, names, path, rfl, hp, htext⟩
    rcases location_of_read hread with ⟨l', hl', hfile⟩ | rfl
    · have hlocation : r₀.location ≠ none := by
        rw [hl']
        exact Option.some_ne_none _
      rw [Report.placedAt_of_location hlocation] at hplaced
      subst hplaced
      exact .file himports hread hl' hfile
    · exact hplaced ▸ .ending himports hread

/-! ## Failures come out of the tasks that fail -/

theorem handsOn_of_error {check : Task → Machine → Prop} {x : Step → Eval α} {e : Failure}
    (stops : Failure → Prop)
    (hx : ∀ self', (Limits.cuttingBy stops).Follows self self' →
      (Limits.cuttingBy stops).Rel (x self) (x self'))
    (hcheck : ∀ t m, ¬ check t m → ∃ e k, stops e ∧ self t m = .error e k)
    (he : x self m = .error e k) (hstops : ¬ stops e) : HandsOn self check x m := by
  intro alarm
  have hfollows : (Limits.cuttingBy stops).Follows self (checked check alarm self) := by
    intro t m
    by_cases hc : check t m
    · exact .inl (if_pos hc).symm
    · exact .inr (hcheck t m hc)
  rcases hx _ hfollows m with hsame | ⟨e', k', hs, he'⟩
  · exact hsame.symm
  · rw [he] at he'
    cases he'
    exact absurd hs hstops

/-- A computation ends with the report that comes out of a task that it hands on, so whatever is the
case of all tasks out of which the report comes is the case of those that fail. -/
theorem handsOn_raised {raised : Task → Machine → Prop} {x : Step → Eval α}
    (hx : ∀ stops self', (Limits.cuttingBy stops).Follows (run h depth) self' →
      (Limits.cuttingBy stops).Rel (x (run h depth)) (x self'))
    (hraised : ∀ t m r₀ k, run h depth t m = .error (.report r₀) k → r₀.placedAt h here = r →
      raised t m)
    (he : x (run h depth) m = .error (.report r₀) k) (hplaced : r₀.placedAt h here = r) :
    HandsOn (run h depth) (fun t k => Succeeds h depth t k ∨ raised t k) x m := by
  refine handsOn_of_error (fun e => ∀ r', e = .report r' → r'.placedAt h here ≠ r) (hx _) ?_ he
    fun hstops => hstops r₀ rfl hplaced
  intro t m hcheck
  cases ht : run h depth t m with
  | ok v k => exact absurd (.inl ⟨v, k, ht⟩) hcheck
  | error e k =>
    refine ⟨e, k, ?_, rfl⟩
    rintro r' rfl hr'
    exact hcheck (.inr (hraised t m r' k ht hr'))

/-- What a task raises gets the place of its node. -/
theorem inside_of_error (he : run h (depth + 1) t m = .error (.report r₀) k)
    (hplaced : r₀.placedAt h around = r) (hends : ∀ v ∈ around, v.EndsWith h r) :
    ∃ r₁, inside h (run h depth) t m = .error (.report r₁) k ∧
      r₁.placedAt h (t.node depth m around) = r ∧
      ∀ v ∈ t.node depth m around, v.EndsWith h r := by
  cases t with
  | apply | ask | wait => exact ⟨r₀, he, hplaced, hends⟩
  | eval c s =>
    have hlocation := placing_eval h (depth + 1) c s m r₀ k he
    rw [Report.placedAt_of_location hlocation] at hplaced
    subst hplaced
    obtain ⟨r₁, hinside, hr₁⟩ := located_eq_report he
    refine ⟨r₁, hinside, hr₁.symm, ?_⟩
    rintro _ ⟨⟩
    exact ⟨k, he⟩

/-- A report that comes out of a task is raised at the innermost node. -/
theorem innermost_of_error (hr : r.location ≠ none)
    (he : run h depth t m = .error (.report r₀) k) (hplaced : r₀.placedAt h around = r)
    (hends : ∀ v ∈ around, v.EndsWith h r) :
    Innermost h (Visit.Raises h r) depth around t m := by
  induction depth generalizing around t m r₀ k with
  | zero => cases he
  | succ depth ih =>
    obtain ⟨r₁, hinside, hplaced, hends⟩ := inside_of_error he hplaced hends
    refine ⟨fun hown => raises_of_own hr hown hinside hplaced hends, ?_⟩
    refine handsOn_raised (fun stops self' hfollows => ?_) ?_ hinside hplaced
    · exact Congruence.inside (C := Limits.cuttingBy stops) hfollows
        fun _ _ _ _ _ => (Limits.cuttingBy_files stops h).loads_below hfollows _ _ _
    · exact fun t m r₀ k ht hplaced => ih ht hplaced hends

/-! ## Commands -/

theorem placing_execute (h : Host) (depth : Nat) (source : Text) (globals : FrameId)
    (outer : List FrameId) (program : Program) :
    Placing (execute (run h depth) source globals outer program) := by
  refine Placing.bind (fun _ _ _ => nofun) fun site => ?_
  exact (placing_foldlM (fun _ s => placing_eval h depth _ s) _).bind fun _ => placing_pure _

/-- A program does not fail with a report unless one of its statements does. -/
theorem execute_not_own {source : Text} {globals : FrameId} {outer : List FrameId} {program : Program}
    (he : execute (run h depth) source globals outer program m = .error (.report r) k) (k' : Machine) :
    execute (succeeding h depth) source globals outer program m ≠ .error (.report r) k' := by
  intro hsame
  have hP : ∀ e : Failure, e.unplaced = e → e.unplaced = e := fun _ => id
  have hfails : Fails (fun e => e.unplaced = e)
      (execute (succeeding h depth) source globals outer program) :=
    Congruence.execute (C := failing _ hP) (succeeding_follows hP h depth) source globals outer program
  exact placing_execute h depth source globals outer program m r k he
    (location_of_unplaced (hfails m _ k' hsame))

/-- Every report with which a command ends, once something is evaluated, has a place, unless it is that
the limit is reached: the innermost node under evaluation is one at which the report comes out, with
the place of this node, or with that in the file which the node imports and of which the text is
refused. -/
theorem perform_raised (h : Host) (command : Command) {m k : Machine} {r : Report}
    (hr : command.perform h h.runner m = .error (.report r) k) (hlimit : r.kind ≠ .recursionLimit)
    (hevaluates : ∃ self, command.perform h self m ≠ command.perform h h.runner m) :
    r.location ≠ none ∧
      RaisedIn h (Visit.Raises h r) h.depth none (Innermost h (Visit.Raises h r) h.depth none)
        (command.perform h) m := by
  obtain ⟨self, hself⟩ := hevaluates
  rcases restsOnProgram_perform h command m with hsame | ⟨source, program, n, hrests⟩
  · exact absurd (hsame _ _) hself
  obtain ⟨k', hk'⟩ := hrests.report hr hlimit
  have hlocation := placing_execute h h.depth source _ _ program n r k' hk'
  have hplaced : r.placedAt h none = r := rfl
  have hhanded : HandsOn (run h h.depth)
      (fun t k => Succeeds h h.depth t k ∨ Innermost h (Visit.Raises h r) h.depth none t k)
      (fun self => execute self source globalFrame [preludeFrame, builtinsFrame] program) n := by
    refine handsOn_raised (fun stops self' hfollows => ?_) (fun t m r₀ k ht hr₀ => ?_) hk' hplaced
    · exact Congruence.execute (C := Limits.cuttingBy stops) hfollows source _ _ program
    · exact innermost_of_error hlocation ht hr₀ nofun
  refine ⟨hlocation, fun hown => ?_, fun alarm => hrests.congr (hhanded alarm)⟩
  obtain ⟨k'', hk''⟩ := hrests.report ((hown fun _ => throw .tooDeep).trans hr) hlimit
  exact absurd hk'' (execute_not_own hk' k'')

/-- A file with a function that is called from another file. -/
def calling : Host :=
  hostWith [(["main.rs"], "imp each from \"lib.rs\"\neach([1, 0])"),
    (["lib.rs"], "pub let each = fn(xs) => fmap(fn(x) => 1 / x, xs)")]

/-- The division in a function of another file, which a native calls. -/
theorem perform_raised_calling : ∃ r k,
    (Command.file "main.rs").perform calling calling.runner (start calling "").machine =
        .error (.report r) k ∧
      r.kind = .divisionByZero ∧ r.location = some ⟨"/w/lib.rs", 1, 42⟩ ∧
      (∃ self, (Command.file "main.rs").perform calling self (start calling "").machine ≠
        (Command.file "main.rs").perform calling calling.runner (start calling "").machine) ∧
      RaisedIn calling (Visit.Raises calling r) calling.depth none
        (Innermost calling (Visit.Raises calling r) calling.depth none)
        ((Command.file "main.rs").perform calling) (start calling "").machine := by
  have hfails : failsWith (fun r => r.kind == .divisionByZero &&
      r.location == some ⟨"/w/lib.rs", 1, 42⟩) ((Command.file "main.rs").perform calling
        calling.runner (start calling "").machine) = true := by decide +kernel
  have hother : failsWith (fun r => r.kind == .recursionLimit) ((Command.file "main.rs").perform
      calling (fun _ => throw .tooDeep) (start calling "").machine) = true := by decide +kernel
  obtain ⟨r, k, hr, htest⟩ := failsWith_eq_true hfails
  obtain ⟨hkind, hl⟩ := Bool.and_eq_true_iff.mp htest
  have hkind := eq_of_beq hkind
  have hevaluates : (Command.file "main.rs").perform calling (fun _ => throw .tooDeep)
      (start calling "").machine ≠
        (Command.file "main.rs").perform calling calling.runner (start calling "").machine := by
    intro he
    rw [he, hr] at hother
    have hlimit : r.kind = .recursionLimit := eq_of_beq hother
    rw [hkind] at hlimit
    cases hlimit
  have hraised := perform_raised calling (.file "main.rs") hr (by simp [hkind]) ⟨_, hevaluates⟩
  exact ⟨r, k, hr, hkind, eq_of_beq hl, ⟨_, hevaluates⟩, hraised.2⟩

/-- A file that ends too early is at fault where it is imported. -/
example : failsWith (fun r => r.location == some ⟨"<input>", 1, 12⟩)
    ((Command.source "<input>" "let y = 1; imp x from \"half.rs\"").perform
      (hostWith [(["half.rs"], "let x =")]) (hostWith [(["half.rs"], "let x =")]).runner
      (blank "")) = true := by decide +kernel

end ModuleScript
