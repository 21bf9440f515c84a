import ModuleScript.Proofs.Afresh.Runs
import ModuleScript.Proofs.Scopes.Extent

/-!
# Results that cannot be told apart

Where functions are numbered and members are listed in another order, and that is all, whatever comes
next shows the same. So results that leave machines of this kind cannot be told apart from then on.
-/

set_option autoImplicit false

namespace ModuleScript

open Eval Session

/-- What may come after a computation: more code, anywhere; the end of the loading of a file around it,
with what the file exports or without; the end of a declaration around it that fails; or another
command. -/
inductive Sequel where
  | code (depth : Nat) (c : Context) (ss : List Stmt)
  | loaded (p : Path) (e : ExportsId)
  | aborted (p : Path)
  | dropped (c : Context) (n : Ident) (old : Previous) (p : ModulePath)
  | command (c : Command)

namespace Sequel

def perform (h : Host) : Sequel → Eval Value
  | code depth c ss => (run h depth).stmts c ss
  | loaded p e => do
    change fun m => m.finishLoading p (m.exportsOf e)
    return .unit
  | aborted p => do
    modify (·.abortLoading p)
    return .unit
  | dropped c n old p => do
    modify fun m => restore c n old (m.removeModule p)
    return .unit
  | command c => c.perform h h.runner

/-- What is put back refers only to what the machine has made. -/
def Within (m : Machine) : Sequel → Prop
  | dropped _ _ old _ =>
    (∀ v, old.slot = some (.value v) → v.Carries m.extent.HasClosure) ∧
      ∀ v, old.exported = some v → v.Carries m.extent.HasClosure
  | _ => True

/-- What one can tell of a result: the value or the failure, and all that has been written by then. -/
def shown : Outcome → Except Failure Value × Text
  | .ok v m => (.ok v.sketch, m.output)
  | .error e m => (.error e, m.output)

/-- What is shown while one thing comes after the other. -/
def shows (h : Host) (m : Machine) : List Sequel → List (Except Failure Value × Text)
  | [] => []
  | s :: later => shown (s.perform h m) :: shows h (endOf (s.perform h m)) later

end Sequel

/-- The two results show the same, and on the machines that they leave so does whatever comes next. What
is put back then is older than the machine `m`. -/
structure Eval.Indistinct (h : Host) (m : Machine) (r r' : Outcome) : Prop where
  now : Sequel.shown r = Sequel.shown r'
  later : ∀ sequels, (∀ s ∈ sequels, Sequel.Within m s) →
    Sequel.shows h (endOf r) sequels = Sequel.shows h (endOf r') sequels

namespace Eval.Indistinct

variable {h : Host} {m m' : Machine} {r s t : Outcome}

theorem refl (h : Host) (m : Machine) (r : Outcome) : Indistinct h m r r := ⟨rfl, fun _ _ => rfl⟩

theorem trans (hrs : Indistinct h m r s) (hst : Indistinct h m s t) : Indistinct h m r t :=
  ⟨hrs.now.trans hst.now, fun sequels hs => (hrs.later sequels hs).trans (hst.later sequels hs)⟩

/-- What is older than an earlier machine is older than a later one. -/
theorem earlier (hl : m.extent.Le m'.extent) (hrs : Indistinct h m' r s) : Indistinct h m r s := by
  refine ⟨hrs.now, fun sequels hs => hrs.later sequels fun q hq => ?_⟩
  have hq := hs q hq
  cases q with
  | dropped c n old p =>
    exact ⟨fun v hv => (hq.1 v hv).mono fun _ => .later hl,
      fun v hv => (hq.2 v hv).mono fun _ => .later hl⟩
  | _ => trivial

/-- Reports are placed alike. -/
theorem located {x y : Eval Value} {k k' : Machine} (hxy : Indistinct h m (x k) (y k')) (l : Location) :
    Indistinct h m (Eval.located h l x k) (Eval.located h l y k') := by
  obtain ⟨hnow, hlater⟩ := hxy
  generalize hr : x k = r, hs : y k' = s at hnow hlater
  cases r with
  | ok v k =>
    cases s with
    | ok u k' =>
      rw [located_of_ok h l hr, located_of_ok h l hs]
      exact ⟨hnow, hlater⟩
    | error e k' => cases (Prod.mk.inj hnow).1
  | error e k =>
    cases s with
    | ok u k' => cases (Prod.mk.inj hnow).1
    | error e' k' =>
      obtain ⟨he, hout⟩ := Prod.mk.inj hnow
      cases he
      rw [located_of_error h l hr, located_of_error h l hs]
      exact ⟨Prod.ext rfl hout, hlater⟩

end Eval.Indistinct

/-! ## Machines on which only the order differs -/

namespace Gaps

/-- All the gaps are empty: runs differ at most in the order of functions and members. -/
structure Level (g : Gaps) : Prop where
  frames : ∀ i, g.frames.past i = i
  records : ∀ i, g.records.past i = i
  exports : ∀ i, g.exports.past i = i
  functions : ∀ i, g.functions.past i = i
  modules : ∀ p, ¬ g.modules p
  files : ∀ p, ¬ g.files p

/-- Empty gaps, with functions before `bound` in another order. -/
def reordered (order : Equiv.Perm Nat) (bound : Nat) (ordered : ∀ i, bound ≤ i → order i = i) :
    Gaps where
  frames := ⟨globalFrame + 1, 0⟩
  records := ⟨0, 0⟩
  exports := ⟨0, 0⟩
  functions := ⟨bound, 0⟩
  order
  modules _ := False
  files _ := False
  ground := Nat.lt_succ_self globalFrame
  ordered

theorem level_reordered {order : Equiv.Perm Nat} {bound : Nat}
    (ordered : ∀ i, bound ≤ i → order i = i) : (reordered order bound ordered).Level where
  frames := Gap.past_level _
  records := Gap.past_level _
  exports := Gap.past_level _
  functions := Gap.past_level _
  modules _ := id
  files _ := id

/-- The functions of the machine are numbered alike in both runs. -/
def Fixes (g : Gaps) (m : Machine) : Prop := ∀ i < m.functions, g.order i = i

variable {g : Gaps} {h : Host} {w : Unit} {m n : Machine}

namespace Level

/-- All code stands at the same place. -/
theorem context (hg : g.Level) (c : Context) : c.past g = c := by
  have hscope : c.scope.past g.frames = c.scope := Scope.past_eq fun i _ => hg.frames i
  rw [Context.past, hscope, Site.past, hg.frames, hg.exports]

/-- Functions differ in their numbers at most. -/
theorem closure (hg : g.Level) (f : Closure) : f.past g = { f with identity := g.order f.identity } := by
  have hvariant : ∀ v ∈ f.variants, v.past g.frames = id v := fun v _ => by
    rw [Variant.past, Scope.past_eq fun i _ => hg.frames i, id]
  have hvariants : f.variants.map (Variant.past g.frames) = f.variants :=
    (List.map_congr_left hvariant).trans (List.map_id _)
  rw [Closure.past, hvariants, hg.functions]

/-- Values of functions that are numbered alike correspond to themselves. -/
theorem matches_self (hg : g.Level) (hm : g.Fixes m) {v : Value}
    (hv : v.Carries m.extent.HasClosure) : g.like.Matches v v := by
  have hclosure : ∀ {a b}, (Likeness.only m.extent.HasClosure).closure a b → g.like.closure a b := by
    rintro a _ ⟨rfl, ha⟩
    change a = a.past g
    rw [hg.closure, hm _ ha.identity]
  have hmodule : ∀ {i p j q}, (Likeness.only m.extent.HasClosure).module i p j q →
      g.like.module i p j q := by
    rintro i p _ _ ⟨rfl, rfl⟩
    exact ⟨(hg.records i).symm, rfl⟩
  exact Likeness.Matches.mono hclosure hmodule hv

/-! ## Whatever comes next -/

theorem follows (hg : g.Level) (h : Host) (depth : Nat) :
    (g.simulation h).Follows (run h depth) (run h depth) :=
  Simulation.run_follows (S := g.simulation h) (fun _ _ => ⟨trivial, .inl trivial, .inl hg.modules⟩)
    hg.files (fun _ _ => False.elim) depth

theorem stmts_agree (hg : g.Level) (h : Host) (depth : Nat) (c : Context) (ss : List Stmt) :
    g.worlds.Agree w g.Values ((run h depth).stmts c ss) ((run h depth).stmts c ss) :=
  Actions.stmts_agree (S := (g.simulation h).toActions) (hg.follows h depth)
    fun _ _ => (hg.context c).symm

/-- What a name meant while functions were numbered alike is put back alike. -/
theorem dropped (hg : g.Level) (hm : g.Fixes m) {c : Context} {x : Ident} {old : Previous}
    {p : ModulePath} (hold : Sequel.Within m (.dropped c x old p)) {k k' : Machine}
    (hk : k.Gapped g k') :
    (restore c x old (k.removeModule p)).Gapped g (restore c x old (k'.removeModule p)) := by
  have hbefore : g.Before old old := by
    obtain ⟨slot, exported⟩ := old
    refine ⟨?_, ?_⟩
    · cases slot with
      | none => exact .none
      | some s =>
        cases s with
        | pending => exact .some .pending
        | value v => exact .some (.value (hg.matches_self hm (hold.1 v rfl)))
    · cases exported with
      | none => exact .none
      | some v => exact .some (hg.matches_self hm (hold.2 v rfl))
  have hrestored := restore_gapped (hk.removeModule p) c x hbefore
  rwa [hg.context] at hrestored

theorem sequel_agrees (hg : g.Level) (hm : g.Fixes m) {s : Sequel} (hs : s.Within m) :
    g.worlds.Agree w g.Values (s.perform h) (s.perform h) := by
  have hunit : g.worlds.Agree w g.Values (pure .unit) (pure .unit) := Worlds.agree_pure (.plain rfl)
  cases s with
  | code depth c ss => exact hg.stmts_agree h depth c ss
  | loaded p e =>
    refine Worlds.Agree.bind (P := Done) (fun k k' hk => ?_) fun _ _ _ _ _ => hunit
    have he := Machine.Gapped.exported hk e
    rw [hg.exports] at he
    exact (g.simulation h).finish_loading p he k k' hk
  | aborted p =>
    refine (Worlds.agree_modify fun k k' hk => ?_).bind fun _ _ _ _ _ => hunit
    obtain ⟨_, -, hend⟩ := (g.simulation h).abort_loading (w := w) p hk
    exact hend
  | dropped c x old p =>
    exact (Worlds.agree_modify fun _ _ hk => hg.dropped hm hs hk).bind fun _ _ _ _ _ => hunit
  | command c => exact Simulation.perform_agrees (hg.follows h h.depth) (performs g h w c)

end Level

theorem shown_eq {r r' : Outcome} (hr : g.worlds.Ends w g.Values r r') :
    Sequel.shown r = Sequel.shown r' ∧ (endOf r).Gapped g (endOf r') := by
  have houtput : ∀ {k k' : Machine}, k.Gapped g k' → k.output = k'.output := fun hk => by
    rw [Machine.output, Machine.output, hk.written]
  cases hr with
  | ok _ hk hv => exact ⟨Prod.ext (congrArg Except.ok (sketch_eq hv)) (houtput hk), hk⟩
  | error _ hk => exact ⟨Prod.ext rfl (houtput hk), hk⟩

/-- Results that differ at most in the order of functions and members cannot be told apart. -/
theorem Level.indistinct (hg : g.Level) (hm : g.Fixes m) {r r' : Outcome}
    (hr : g.worlds.Ends w g.Values r r') : Indistinct h m r r' := by
  obtain ⟨hnow, hends⟩ := shown_eq hr
  refine ⟨hnow, fun sequels hs => ?_⟩
  generalize endOf r = k, endOf r' = k' at hends
  induction sequels generalizing k k' with
  | nil => rfl
  | cons s later ih =>
    obtain ⟨hs, hlater⟩ := List.forall_mem_cons.mp hs
    obtain ⟨hshown, hnext⟩ := shown_eq (hg.sequel_agrees (h := h) (w := w) hm hs k k' hends)
    unfold Sequel.shows
    rw [hshown, ih hlater _ _ hnext]

/-- The machine beside itself, once the functions whose numbers differ have been made. -/
theorem gapped_reordered {order : Equiv.Perm Nat} {bound made : Nat}
    {ordered : ∀ i, bound ≤ i → order i = i} (hm : m.Ranged)
    (hfixes : (reordered order bound ordered).Fixes m) (hmade : bound ≤ made) :
    ({ m with functions := made } : Machine).Gapped (reordered order bound ordered)
      { m with functions := made } := by
  have hlevel := level_reordered ordered
  have hholds : m.Holds fun v => (reordered order bound ordered).like.Matches v v :=
    hm.holds.mono fun _ => hlevel.matches_self hfixes
  exact {
    frames := ⟨hm.base, rfl⟩
    records := ⟨Nat.zero_le _, rfl⟩
    exports := ⟨Nat.zero_le _, rfl⟩
    functions := ⟨hmade, rfl⟩
    frame := fun i => by
      rw [hlevel.frames]
      refine ⟨rfl, ?_, Likeness.contents_refl hholds.slot⟩
      cases (Machine.frame _ i).record with
      | none => rfl
      | some r => exact congrArg some (hlevel.records r).symm
    record := fun i => by
      rw [hlevel.records]
      exact ⟨rfl, fun vis => (Likeness.contents_refl (hholds.member vis)).get?⟩
    registered := fun p _ => by
      cases Machine.module? _ p with
      | none => rfl
      | some i => exact congrArg some (hlevel.records i).symm
    exported := fun i => by
      rw [hlevel.exports]
      exact Bindings.related_refl fun _ hp => hholds.exporting.exports hp
    loaded := fun p _ => by
      change Option.Rel _ (m.loaded? p) (m.loaded? p)
      cases hp : m.loaded? p with
      | none => exact .none
      | some e => exact .some (Bindings.related_refl fun _ he => hholds.exporting.loaded? hp _ _ he)
    loading := rfl
    input := rfl
    written := rfl }

end Gaps

end ModuleScript
