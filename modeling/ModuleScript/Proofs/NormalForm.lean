import ModuleScript.Proofs.Invariant.Sessions
import ModuleScript.Proofs.Modules.Table
import ModuleScript.Proofs.Sequences

/-!
# Values in normal form

Of all that makes lists only the operator `$` may leave one that holds nothing but chars. Where it
does not, all values are in normal form: those that tasks yield, those that are bound, exported or
members of modules, and those that are passed to functions.
-/

set_option autoImplicit false

namespace ModuleScript

open Eval Session Condition

/-- All values that a machine holds are in normal form. -/
structure Machine.Normal (m : Machine) : Prop where
  slots : ∀ {i n v}, (n, .value v) ∈ (m.frame i).bindings → v.Normal
  members : ∀ {i vis n v}, (n, .value v) ∈ (m.record i).members vis → v.Normal
  exporting : m.Exporting Value.Normal

namespace Machine

variable {m m' : Machine} {s : Slot}

theorem Normal.of_records (h : m.Normal) (hrecords : m'.records = m.records)
    (hexports : m'.exports = m.exports) (hloaded : m'.loaded = m.loaded)
    (hslots : ∀ {i n v}, (n, .value v) ∈ (m'.frame i).bindings → v.Normal) : m'.Normal := by
  refine ⟨hslots, fun {i vis n v} hv => ?_, h.exporting.of_eq hexports hloaded⟩
  unfold record at hv
  rw [hrecords] at hv
  exact h.members hv

theorem Normal.pushFrame (h : m.Normal) {f : Frame}
    (hf : ∀ n v, (n, .value v) ∈ f.bindings → v.Normal) : (m.pushFrame f).Normal := by
  refine h.of_records rfl rfl rfl fun {i n v} hv => ?_
  unfold Machine.pushFrame Machine.frame at hv
  rw [Array.getElem?_push] at hv
  by_cases hi : i = m.frames.size
  · rw [if_pos hi] at hv
    exact hf n v hv
  · rw [if_neg hi] at hv
    exact h.slots hv

theorem Normal.bindings (h : m.Normal) (i : FrameId) {b : Bindings Slot → Bindings Slot}
    (hb : ∀ n v, (n, .value v) ∈ b (m.frame i).bindings →
      (n, .value v) ∈ (m.frame i).bindings ∨ v.Normal) :
    ({ m with frames := m.frames.modify i fun f => { f with bindings := b f.bindings } } :
      Machine).Normal := by
  refine h.of_records rfl rfl rfl fun {j n v} hv => ?_
  rcases frame_modify m i j fun f => { f with bindings := b f.bindings } with he | ⟨rfl, he⟩
  · rw [he] at hv
    exact h.slots hv
  · rw [he] at hv
    rcases hb n v hv with hv | hv
    · exact h.slots hv
    · exact hv

theorem Normal.setRecord (h : m.Normal) (i : RecordId) {r : Record}
    (hr : ∀ vis n v, (n, .value v) ∈ r.members vis →
      (n, .value v) ∈ (m.record i).members vis ∨ v.Normal) : (m.setRecord i r).Normal := by
  refine ⟨h.slots, fun {j vis n v} hv => ?_, h.exporting.of_eq rfl rfl⟩
  rw [record_setRecord] at hv
  split at hv
  · rename_i hij
    obtain ⟨rfl, -⟩ := hij
    rcases hr vis n v hv with hv | hv
    · exact h.members hv
    · exact hv
  · exact h.members hv

theorem Normal.defineMember (h : m.Normal) (i : RecordId) (n : Ident) (vis : Visibility)
    (hs : ∀ v, s = .value v → v.Normal) : (m.defineMember i n s vis).Normal := by
  refine h.setRecord i fun w x v hv => ?_
  rcases Record.mem_setMember hv with hv | hv
  · exact .inl hv
  · exact .inr (hs v hv.symm)

theorem Normal.declare (h : m.Normal) {i : RecordId} {n : Ident} {vis : Visibility} {r : Record}
    (hr : (m.record i).declare n vis = .ok r) : (m.setRecord i r).Normal := by
  refine h.setRecord i fun w x v hv => ?_
  unfold Record.declare at hr
  split at hr
  · cases hr
    rcases Record.mem_setMember hv with hv | hv
    · exact .inl hv
    · cases hv
  · split at hr
    · cases hr
      exact .inl hv
    · cases hr

theorem Normal.register (h : m.Normal) {c : Context} {n : Ident} {i : RecordId} {p : ModulePath}
    {isOutermost : Bool} (hr : register c n m = .ok (i, p, isOutermost) m') : m'.Normal := by
  obtain ⟨-, -, -, rfl⟩ := register_eq_ok hr
  refine ⟨h.slots, fun {j vis x v} hv => ?_, h.exporting.of_eq rfl rfl⟩
  unfold record at hv
  rw [Array.getElem?_push] at hv
  split at hv
  · cases vis <;> cases hv
  · exact h.members hv

end Machine

namespace NormalForm

/-- All values are in normal form. -/
def invariant : Invariant where
  Sound := Machine.Normal
  Later _ _ := True
  Good := Value.Normal
  Placed _ _ := True
  later_refl _ := trivial
  later_trans _ _ := trivial
  placed_later _ _ := trivial
  atom := .atom
  item := Value.Normal.item
  ofItems := Value.normal_ofItems
  reverse := Value.normal_reverse
  slot hm hv := hm.slots hv
  member _ hm hv := hm.members hv
  exporting := Machine.Normal.exporting
  pushFrame := by
    intro m f hm _ hf
    refine ⟨⟨trivial, hm.pushFrame fun n v hv => ?_⟩, trivial⟩
    obtain ⟨u, hu, hnormal⟩ := hf n _ hv
    cases hu
    exact hnormal
  setSlot := by
    intro m i n s hm hs _
    refine ⟨trivial, hm.bindings i (b := (·.set n s)) fun x v hv => ?_⟩
    rcases Bindings.mem_set hv with hv | ⟨-, hv⟩
    · exact .inl hv
    · exact .inr (hs v hv.symm)
  eraseSlot := by
    intro m i n hm _
    refine ⟨trivial, hm.bindings i (b := (·.erase n)) fun x v hv => .inl ?_⟩
    exact Bindings.mem_of_mem_erase hv
  defineMember i n vis hm hs := ⟨trivial, hm.defineMember i n vis hs⟩
  declare hm hr := ⟨trivial, hm.declare hr⟩
  register := by
    intro m m' c n i p isOutermost hm _ hr
    refine ⟨⟨trivial, hm.register hr⟩, fun k name hk => ?_, fun k hk => ?_⟩
    · refine ⟨⟨trivial, hk.sound.pushFrame fun n v hv => ?_⟩, trivial⟩
      cases hv
    · exact ⟨trivial, hk.sound.slots, hk.sound.members, hk.sound.exporting.of_eq rfl rfl⟩
  rest := by
    intro m m' hm hframes hrecords _ hexporting
    refine ⟨trivial, fun {i n v} hv => ?_, fun {i vis n v} hv => ?_, hexporting⟩
    · unfold Machine.frame at hv
      rw [hframes] at hv
      exact hm.slots hv
    · unfold Machine.record at hv
      rw [hrecords] at hv
      exact hm.members hv

/-! ## Runs -/

variable {h : Host} {m : Machine} {t : Task}

/-- A value in normal form, or a failure. -/
inductive NormalOutcome : Outcome → Prop where
  | ok {v : Value} {m : Machine} : v.Normal → NormalOutcome (.ok v m)
  | error {e : Failure} {m : Machine} : NormalOutcome (.error e m)

/-- If the task drops the first element of a list or text, what it leaves is in normal form. -/
def TailNormal (t : Task) (_ : Machine) (r : Outcome) : Prop := t.isTail = true → NormalOutcome r

theorem tailNormal_wait (t : Task) (m : Machine) (r : Outcome) : TailNormal (.wait t) m r := by
  rintro ⟨⟩

/-- The task is given normal values on a machine that holds normal values, and leaves such. -/
structure NormalEnd (t : Task) (m : Machine) (r : Outcome) : Prop where
  before : m.Normal
  applied : ∀ site f args, t = .apply site f args → f.Normal ∧ ∀ v ∈ args, v.Normal
  outcome : NormalOutcome r
  after : (endOf r).Normal

theorem normalEnd_of_fits (hm : m.Normal) (ht : invariant.Fits m t) {r : Outcome}
    (hr : NormalOutcome r) (hend : (endOf r).Normal) : NormalEnd t m r := by
  refine ⟨hm, ?_, hr, hend⟩
  rintro site f args rfl
  exact ht

/-- A run that gives up where a tail is not in normal form is the same as one that checks of all
tasks that they end in normal form, unless it gives up. -/
theorem vetted_follows (h : Host) (marker : Fault) (alarm : Step) (depth : Nat) :
    invariant.Follows (· = marker) (vetted h TailNormal (fun _ => throw (.fault marker)) depth)
      (vetted h NormalEnd alarm depth) := by
  induction depth with
  | zero => exact Invariant.follows_tooDeep (fun _ => rfl) fun _ => rfl
  | succ depth ih =>
    intro m t ht hm
    have hstep : invariant.Ends (· = marker) m (fun _ v => t.isTail = false → v.Normal)
        (step h (vetted h TailNormal (fun _ => throw (.fault marker)) depth) t m)
        (step h (vetted h NormalEnd alarm depth) t m) := by
      cases htail : t.isTail with
      | false => exact (Invariant.step_same ih ht htail).imp (fun _ _ _ hv _ => hv) hm
      | true =>
        obtain ⟨c, l, e, rfl⟩ := exists_of_isTail htail
        refine (Invariant.tail_same ih c l e).imp (fun _ _ _ _ hf => ?_) hm
        cases hf
    generalize hx : step h (vetted h TailNormal (fun _ => throw (.fault marker)) depth) t m = x,
      hy : step h (vetted h NormalEnd alarm depth) t m = y at hstep
    have hleft : TailNormal t m x →
        vetted h TailNormal (fun _ => throw (.fault marker)) (depth + 1) t m = x := by
      intro hc
      rw [vetted_of_check (hx ▸ hc), hx]
    have hright : NormalEnd t m y → vetted h NormalEnd alarm (depth + 1) t m = y := by
      intro hc
      rw [vetted_of_check (hy ▸ hc), hy]
    cases hstep with
    | @ok v m' hmoves hv =>
      by_cases hnormal : v.Normal
      · rw [hleft fun _ => .ok hnormal, hright (normalEnd_of_fits hm ht (.ok hnormal) hmoves.sound)]
        exact .ok hmoves hnormal
      · -- The check of the first run fails, so it gives up.
        have hfails : ¬ TailNormal t m (.ok v m') := by
          intro hc
          cases htail : t.isTail with
          | false => exact hnormal (hv htail)
          | true =>
            cases hc htail with
            | ok hv => exact hnormal hv
        rw [vetted_of_not_check (hx ▸ hfails)]
        exact .quit rfl
    | error hmoves =>
      rw [hleft fun _ => .error, hright (normalEnd_of_fits hm ht .error hmoves.sound)]
      exact .error hmoves
    | quit hf =>
      rw [hleft fun _ => .error]
      exact .quit hf

/-- A computation whose tails are all in normal form leads to tasks only that end in normal form. -/
theorem allEnd_normal {α : Type} {Q : Machine → α → Prop} {x : Step → Eval α} {depth : Nat}
    (hm : m.Normal) (hx : ∀ {marker self self'}, invariant.Follows (· = marker) self self' →
      invariant.Same (· = marker) m Q (x self) (x self'))
    (htails : AllEnd h depth TailNormal x m) :
    AllEnd h depth NormalEnd x m ∧ (endOf (x (run h depth) m)).Normal ∧
      ∀ a k, x (run h depth) m = .ok a k → Q k a := by
  obtain ⟨marker, hmarker⟩ := exists_marker (x (run h depth) m)
  have hends : ∀ alarm, invariant.Ends (· = marker) m Q (x (run h depth) m)
      (x (vetted h NormalEnd alarm depth) m) := by
    intro alarm
    have hfollows := hx (vetted_follows h marker alarm depth) hm
    rwa [htails] at hfollows
  have hall : AllEnd h depth NormalEnd x m := by
    intro alarm
    rcases (hends alarm).eq_or_quit with ⟨he, -⟩ | ⟨_, k, rfl, he⟩
    · exact he.symm
    · exact absurd he (hmarker k)
  refine ⟨hall, ?_⟩
  have hrun := hends (run h depth)
  rw [hall] at hrun
  generalize x (run h depth) m = r at hrun hmarker
  cases hrun with
  | ok hmoves hq =>
    refine ⟨hmoves.sound, ?_⟩
    rintro _ _ ⟨⟩
    exact hq
  | error hmoves =>
    refine ⟨hmoves.sound, ?_⟩
    rintro _ _ ⟨⟩
  | quit hf =>
    subst hf
    exact absurd rfl (hmarker _)

/-! ## Sessions -/

/-- Binds a name to a function and does nothing else. -/
def bindsFunction : Stmt → Bool
  | .expr (.binding _ _ (.lambda _ _ _ _)) => true
  | _ => false

theorem vetted_bindsFunction {s : Stmt} (hs : bindsFunction s = true) (alarm : Step) (depth : Nat)
    (c : Context) : vetted h TailNormal alarm depth (.eval c s) = run h depth (.eval c s) := by
  have hlambda : ∀ l n ps body depth, vetted h TailNormal alarm depth
      (.eval c (.expr (.lambda l n ps body))) =
        run h depth (.eval c (.expr (.lambda l n ps body))) := by
    intro l n ps body depth
    cases depth with
    | zero => rfl
    | succ depth =>
      funext m
      rw [vetted_of_check fun ht => by cases ht]
      rfl
  cases depth with
  | zero => rfl
  | succ depth =>
    unfold bindsFunction at hs
    split at hs
    · funext m
      rw [vetted_of_check fun ht => by cases ht]
      simp only [run, step, stmt, expr, Step.expr, below_run, vetted_below tailNormal_wait, hlambda]
    · cases hs

theorem prelude_bindsFunctions {program : Program}
    (hr : h.read "<prelude>" preludeSource = .ok program) :
    ∀ s ∈ program, bindsFunction s = true := by
  have hall : (readProgram "<prelude>" preludeSource).toOption.all (·.all bindsFunction) = true := by
    decide +kernel
  rw [program_of_read hr] at hall
  exact List.all_eq_true.mp hall

theorem blank_normal (input : Text) : (blank input).Normal := by
  refine ⟨fun {i n v} hv => ?_, fun {i vis n v} hv => ?_, fun {i n v} hv => ?_, fun he => ?_⟩
  · rcases frame_blank input i with he | he
    · rw [he] at hv
      obtain ⟨k, -, hk⟩ := List.mem_map.mp hv
      cases hk
      exact .atom fun _ hn => by cases hn
    · rw [he] at hv
      cases hv
  · simp [Machine.record, blank] at hv
    cases vis <;> cases hv
  · simp [Machine.exportsOf, blank] at hv
  · cases he

theorem start_normal (h : Host) (input : Text) : (start h input).machine.Normal := by
  have htails : AllEnd h h.ownDepth TailNormal (prepare h) (blank input) := by
    intro alarm
    refine congrFun ?_ _
    unfold prepare
    cases hr : h.read "<prelude>" preludeSource with
    | error e => rfl
    | ok program =>
      have hexecute : execute (vetted h TailNormal alarm h.ownDepth) "<prelude>" preludeFrame
          [builtinsFrame] program = execute (run h h.ownDepth) "<prelude>" preludeFrame
          [builtinsFrame] program := by
        refine bind_congr fun site => ?_
        rw [stmts_congr fun s hs => vetted_bindsFunction (prelude_bindsFunctions hr s hs) _ _ _]
      exact congrArg (· >>= fun _ => pure ()) hexecute
  have hsame : ∀ {marker : Fault} {self self' : Step}, invariant.Follows (· = marker) self self' →
      invariant.Same (· = marker) (blank input) (fun _ _ => True) (prepare h self)
        (prepare h self') :=
    fun hf => same_lift_bind fun program _ =>
      (Invariant.execute_same hf _ trivial _ program).bind fun _ _ _ _ => same_pure trivial
  have hload : (endOf (loadPrelude h (blank input))).Normal :=
    (allEnd_normal (blank_normal input) hsame htails).2.1
  unfold start
  split
  · dsimp only
    generalize loadPrelude h (blank input) = r at hload ⊢
    cases r with
    | ok _ m => exact hload
    | error _ m => exact hload
  · exact blank_normal input

/-- Every tail that the last command given to a session takes is in normal form. -/
def TailsNormal (h : Host) (input : Text) (before : List Command) (c : Command) : Prop :=
  AllEnd h h.depth TailNormal (c.perform h) (after h input before).machine

theorem perform_normal {input : Text} {before : List Command} {c : Command}
    (hm : (after h input before).machine.Normal) (htails : TailsNormal h input before c) :
    AllEnd h h.depth NormalEnd (c.perform h) (after h input before).machine ∧
      (endOf (c.perform h h.runner (after h input before).machine)).Normal ∧
      NormalOutcome (c.perform h h.runner (after h input before).machine) := by
  have hsame : ∀ {marker : Fault} {self self' : Step}, invariant.Follows (· = marker) self self' →
      invariant.Same (· = marker) (after h input before).machine (fun _ => Value.Normal)
        (c.perform h self) (c.perform h self') :=
    fun hf => Invariant.perform_same hf trivial c
  obtain ⟨hall, hend, hvalue⟩ := allEnd_normal hm hsame htails
  refine ⟨hall, hend, ?_⟩
  change ∀ a k, c.perform h h.runner _ = .ok a k → _ at hvalue
  generalize c.perform h h.runner (after h input before).machine = r at hvalue
  cases r with
  | ok v k => exact .ok (hvalue v k rfl)
  | error e k => exact .error

theorem after_normal {input : Text} {history : List Command}
    (htails : ∀ before c rest, history = before ++ c :: rest → TailsNormal h input before c) :
    (after h input history).machine.Normal := by
  induction history using List.reverseRecOn with
  | nil => exact start_normal h input
  | append_singleton history c ih =>
    have hm := ih fun before d rest he => htails before d (rest ++ [c]) (by simp [he])
    have hlast := htails history c [] rfl
    rw [after_machine]
    exact (perform_normal hm hlast).2.1

/-- In a session in which no operator `$` leaves a list of chars, every task of every command is
given values in normal form and yields one, on machines that hold no others. Of values in normal
form those with the same elements, if there are any, are the same, and those with equal elements are
equal. -/
theorem values_normal (h : Host) (input : Text) (history : List Command) (command : Command)
    (htails : ∀ before c rest, history ++ [command] = before ++ c :: rest →
      TailsNormal h input before c) :
    (after h input history).machine.Normal ∧
      AllEnd h h.depth NormalEnd (command.perform h) (after h input history).machine ∧
      NormalOutcome (command.perform h h.runner (after h input history).machine) ∧
      (after h input (history ++ [command])).machine.Normal ∧
      ∀ (v w : Value) (vs ws : List Value), v.Normal → w.Normal → v.items? = some vs →
        w.items? = some ws → vs ≠ [] →
        (vs = ws → v = w) ∧ (Value.sameItems vs ws = true → v.same w = true) := by
  have hm : (after h input history).machine.Normal :=
    after_normal fun before c rest he => htails before c (rest ++ [command]) (by simp [he])
  obtain ⟨hall, -, hvalue⟩ := perform_normal hm (htails history command [] rfl)
  refine ⟨hm, hall, hvalue, after_normal htails, fun v w vs ws hv hw hvs hws hne => ⟨?_, ?_⟩⟩
  · rintro rfl
    exact hv.eq_of_items hw hvs hws hne
  · exact hv.same_of_sameItems hw hvs hws hne

/-! ## Examples -/

def emptyHost : Host := ⟨⟨⟨"/", []⟩, []⟩, 1000, false⟩

theorem NormalOutcome.located {x : Eval Value} (hx : NormalOutcome (x m)) (l : Location) :
    NormalOutcome (Eval.located h l x m) := by
  cases hr : Eval.located h l x m with
  | error e k => exact .error
  | ok v k =>
    rw [located_eq_ok hr] at hx
    cases hx with
    | ok hv => exact .ok hv

/-- The tail of a text, if it has one, is a text. -/
theorem normalOutcome_tail_string (l k : Location) (t : Text) (depth : Nat) (c : Context) :
    NormalOutcome (run h depth (.eval c (.expr (.unary l .tail (.constant k (.string t))))) m) := by
  cases depth with
  | zero => exact .error
  | succ depth =>
    let w : Work := .node .unary l
    refine NormalOutcome.located ?_ l
    change NormalOutcome ((do
      let v ← (run h depth).below h w (.eval c (.expr (.constant k (.string t))))
      ((run h depth).below h w).ask (.unary .tail v.shape)
      lift (Value.unary .tail v)) m)
    rw [below_run]
    cases depth - h.platform.between w (Task.eval c (.expr (.constant k (.string t)))).work with
    | zero => exact .error
    | succ rest =>
      have hv : run h (rest + 1) (.eval c (.expr (.constant k (.string t)))) m =
          .ok (.text t) m := rfl
      rw [bind_of_ok hv]
      rcases steady_ask_below h depth w (.unary .tail (Value.text t).shape) with ha | ⟨e, -, ha⟩
      · rw [bind_of_ok (ha m)]
        exact .ok (.atom fun _ he => by cases he)
      · rw [bind_of_error (ha m)]
        exact .error

theorem vetted_tail_string (l k : Location) (t : Text) (alarm : Step) (depth : Nat) (c : Context) :
    vetted h TailNormal alarm depth (.eval c (.expr (.unary l .tail (.constant k (.string t))))) =
      run h depth (.eval c (.expr (.unary l .tail (.constant k (.string t))))) := by
  have hconstant : ∀ depth, vetted h TailNormal alarm depth
      (.eval c (.expr (.constant k (.string t)))) =
        run h depth (.eval c (.expr (.constant k (.string t)))) := by
    intro depth
    cases depth with
    | zero => rfl
    | succ depth =>
      funext m
      rw [vetted_of_check fun ht => by cases ht]
      rfl
  have hask : ∀ depth d, vetted h TailNormal alarm depth (.ask d) = run h depth (.ask d) := by
    intro depth d
    cases depth with
    | zero => rfl
    | succ depth =>
      funext m
      rw [vetted_of_check fun ht => by cases ht]
      rfl
  cases depth with
  | zero => rfl
  | succ depth =>
    funext m
    have hstep : step h (vetted h TailNormal alarm depth)
        (.eval c (.expr (.unary l .tail (.constant k (.string t))))) =
        step h (run h depth) (.eval c (.expr (.unary l .tail (.constant k (.string t))))) := by
      simp only [step, stmt, expr, Step.expr, Step.ask, below_run, vetted_below tailNormal_wait,
        hconstant, hask]
    have hnormal := normalOutcome_tail_string (h := h) (m := m) l k t (depth + 1) c
    rw [vetted_of_check fun _ => by rw [hstep]; exact hnormal, hstep]
    rfl

/-- The program is the tail of a text. -/
def isTextTail : Program → Bool
  | [.expr (.unary _ .tail (.constant _ (.string _)))] => true
  | _ => false

theorem exists_of_isTextTail {p : Program} (h : isTextTail p = true) :
    ∃ l k t, p = [.expr (.unary l .tail (.constant k (.string t)))] := by
  unfold isTextTail at h
  split at h
  · exact ⟨_, _, _, rfl⟩
  · cases h

theorem tailsNormal_string :
    TailsNormal emptyHost "" [] (.source "main" "$\"ab\"") := by
  intro alarm
  have hread : (readProgram "main" "$\"ab\"").toOption.any isTextTail = true := by decide +kernel
  cases hp : readProgram "main" "$\"ab\"" with
  | error e =>
    rw [hp] at hread
    cases hread
  | ok p =>
    rw [hp] at hread
    obtain ⟨l, k, t, rfl⟩ := exists_of_isTextTail hread
    have hr : emptyHost.read "main" "$\"ab\"" =
        .ok [.expr (.unary l .tail (.constant k (.string t)))] := by
      unfold Host.read
      rw [hp]
      rfl
    have hexecute : execute (vetted emptyHost TailNormal alarm emptyHost.depth) "main" globalFrame
        [preludeFrame, builtinsFrame] [.expr (.unary l .tail (.constant k (.string t)))] =
          execute (run emptyHost emptyHost.depth) "main" globalFrame
            [preludeFrame, builtinsFrame] [.expr (.unary l .tail (.constant k (.string t)))] := by
      refine bind_congr fun site => ?_
      rw [stmts_congr fun s hs => ?_]
      obtain rfl := List.mem_singleton.mp hs
      exact vetted_tail_string l k t alarm _ _
    have hperform : (Command.source "main" "$\"ab\"").perform emptyHost
        (vetted emptyHost TailNormal alarm emptyHost.depth) =
          (Command.source "main" "$\"ab\"").perform emptyHost (run emptyHost emptyHost.depth) := by
      simp only [Command.perform, hr]
      exact congrArg (fun x => guarded emptyHost x >>= fun r => pure r.1) hexecute
    exact congrFun hperform _

theorem values_normal_string :
    (∀ before c rest, [] ++ [Command.source "main" "$\"ab\""] = before ++ c :: rest →
        TailsNormal emptyHost "" before c) ∧
      (after emptyHost "" ([] ++ [.source "main" "$\"ab\""])).machine.Normal := by
  have htails : ∀ before c rest, [] ++ [Command.source "main" "$\"ab\""] = before ++ c :: rest →
      TailsNormal emptyHost "" before c := by
    intro before c rest he
    cases before with
    | nil =>
      cases he
      exact tailsNormal_string
    | cons d before => simp at he
  exact ⟨htails, (values_normal emptyHost "" [] _ htails).2.2.2.1⟩

/-- A list of this one char. -/
def isCharList (c : CodePoint) : Value → Bool
  | .list [.char d] => d == c
  | _ => false

theorem eq_of_isCharList {c : CodePoint} {v : Value} (h : isCharList c v = true) :
    v = .list [.char c] := by
  unfold isCharList at h
  split at h
  · rw [beq_iff_eq.mp h]
  · cases h

def isFalse : Value → Bool
  | .bool b => !b
  | _ => false

theorem eq_of_isFalse {v : Value} (h : isFalse v = true) : v = .bool false := by
  cases v with
  | bool b =>
    cases b with
    | true => cases h
    | false => rfl
  | _ => cases h

/-- The operator `$` leaves a list of one char here, which is not equal to the text of that char. -/
theorem tail_leaves_chars :
    (∃ m, (Command.source "main" "$[1, 'a']").perform emptyHost emptyHost.runner (blank "") =
        .ok (.list [.char 'a']) m) ∧
      ¬ (Value.list [.char 'a']).Normal ∧
      ∃ m, (Command.source "main" "$[1, 'a'] == \"a\"").perform emptyHost emptyHost.runner
        (blank "") = .ok (.bool false) m := by
  have hvalue : endsWith (isCharList 'a') ((Command.source "main" "$[1, 'a']").perform emptyHost
      emptyHost.runner (blank "")) = true := by decide +kernel
  have hequal : endsWith isFalse ((Command.source "main" "$[1, 'a'] == \"a\"").perform emptyHost
      emptyHost.runner (blank "")) = true := by decide +kernel
  refine ⟨?_, fun hn => ?_, ?_⟩
  · obtain ⟨v, m, he, hv⟩ := endsWith_eq_true hvalue
    exact ⟨m, by rw [he, eq_of_isCharList hv]⟩
  · exact hn.not_allChars ⟨List.cons_ne_nil _ _, fun v hv => ⟨_, List.mem_singleton.mp hv⟩⟩
  · obtain ⟨v, m, he, hv⟩ := endsWith_eq_true hequal
    exact ⟨m, by rw [he, eq_of_isFalse hv]⟩

end NormalForm

end ModuleScript
