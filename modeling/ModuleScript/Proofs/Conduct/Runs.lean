import ModuleScript.Proofs.Conduct.Basic
import ModuleScript.Proofs.Simulation.Sessions
import ModuleScript.Proofs.Watch

/-!
# Runs that keep a conduct

Tasks that may be performed lead only to tasks that may be performed, and end where the machine is
what the conduct says. If files may be loaded, whole sessions keep to it.
-/

set_option autoImplicit false

namespace ModuleScript

open Eval Session

namespace Conduct

variable {C : Conduct} {h : Host} {w : C.World}

/-! ## Tasks -/

/-- A task that may be performed. -/
def Allows (C : Conduct) (w : C.World) : Task → Prop
  | .eval c s => C.Code w c s
  | .apply site f args => C.Serves w site ∧ C.Valid w f ∧ ∀ v ∈ args, C.Valid w v
  | .ask _ => True
  | .wait t => C.Allows w t

theorem allows_after (n : Nat) (t : Task) : C.Allows w (t.after n) ↔ C.Allows w t := by
  induction n with
  | zero => exact .rfl
  | succ n ih => exact ih

theorem only_forall₂ {vs vs' : List Value}
    (h : List.Forall₂ (Likeness.only (C.Good w)).Matches vs vs') :
    vs = vs' ∧ ∀ v ∈ vs, C.Valid w v := by
  induction h with
  | nil => exact ⟨rfl, fun _ hv => by cases hv⟩
  | cons hv _ ih =>
    obtain ⟨rfl, hvs⟩ := ih
    have hvalid := Value.carries_of_only hv
    obtain rfl := Value.eq_of_only hv
    exact ⟨rfl, List.forall_mem_cons.mpr ⟨hvalid, hvs⟩⟩

/-- Both steps do the same on tasks that may be performed, and keep the conduct. -/
theorem follows_of_tasks {next next' : Step}
    (ht : ∀ w t, C.Allows w t →
      C.worlds.Agree w (fun w' => (Likeness.only (C.Good w')).Matches) (next t) (next' t)) :
    C.actions.Follows next next' := fun n =>
  have hn : ∀ w t, C.Allows w t →
      C.worlds.Agree w (fun w' => (Likeness.only (C.Good w')).Matches) (next (t.after n))
        (next' (t.after n)) :=
    fun w t hc => ht w (t.after n) ((allows_after n t).mpr hc)
  { code := by
      rintro w c _ s ⟨rfl, hc⟩
      exact hn w (.eval c s) hc
    decl := by
      rintro w c s _ _ ⟨rfl, rfl, hc⟩
      exact (hn w (.eval c s) hc).imp fun _ _ _ _ hv _ => hv
    apply := by
      rintro w s _ f f' args args' ⟨rfl, hs⟩ hf hargs
      have hvalid := Value.carries_of_only hf
      obtain rfl := Value.eq_of_only hf
      obtain ⟨rfl, hall⟩ := only_forall₂ hargs
      exact hn w (.apply s f args) ⟨hs, hvalid, hall⟩
    ask := fun d => hn _ (.ask d) trivial }

theorem task_agrees {next next' : Step} (hf : C.actions.Follows next next') {t : Task}
    (ht : C.Allows w t) :
    C.worlds.Agree w (fun w' => (Likeness.only (C.Good w')).Matches) (next t) (next' t) := by
  have hall : ∀ n, C.worlds.Agree w (fun w' => (Likeness.only (C.Good w')).Matches)
      (next (t.after n)) (next' (t.after n)) := by
    induction t with
    | eval c s => exact fun n => (hf n).code ⟨rfl, ht⟩
    | apply site f args =>
      obtain ⟨hs, hf', hargs⟩ := ht
      exact fun n => (hf n).apply ⟨rfl, hs⟩ hf' (List.forall₂_same.mpr hargs)
    | ask d => exact fun n => (hf n).ask d
    | wait t ih =>
      intro n
      rw [show (Task.wait t).after n = t.after (n + 1) from Task.after_after n 1 t]
      exact ih ht (n + 1)
  exact hall 0

theorem step_agrees {self self' : Step} (hf : C.actions.Follows self self')
    (hl : C.actions.LoadsBelow h self self') {t : Task} (ht : C.Allows w t)
    (hv : C.Varies ∨ t.isVariation = false) :
    C.worlds.Agree w (fun w' => (Likeness.only (C.Good w')).Matches) (step h self t)
      (step h self' t) := by
  cases t with
  | eval c s => exact Actions.code_agrees (S := C.actions) hf hl ⟨rfl, ht⟩ ⟨trivial, hv, .inl trivial⟩
  | apply site f args =>
    obtain ⟨hs, hf', hargs⟩ := ht
    exact Actions.apply_step_agrees (S := C.actions) hf ⟨rfl, hs⟩ hf' (List.forall₂_same.mpr hargs)
  | ask d => exact Actions.ask_agrees (S := C.actions) h self self' d
  | wait t => exact task_agrees hf ht

/-! ## Files -/

/-- The file may be evaluated. -/
def Opening (C : Conduct) (h : Host) (p : Path) : Prop :=
  ∀ {w m t program}, C.Fits w m → h.disk.readText p = .ok t → h.read p.text t = .ok program →
    ∃ w', C.Later w w' ∧
      C.Fits w' { m.pushFrame { name := "global " ++ p.name } with
        exports := m.exports.push [] } ∧
      C.Serves w' ⟨p.text, m.frames.size, m.exports.size⟩ ∧
      ∀ s ∈ program, C.Code w'
        (top ⟨p.text, m.frames.size, m.exports.size⟩ [preludeFrame, builtinsFrame]) s

/-- Files may be loaded. -/
structure Files (C : Conduct) (h : Host) : Prop where
  setLoading : ∀ {w m} paths, C.Fits w m → C.Fits w { m with loading := paths }
  setLoaded : ∀ {w m} p {e}, C.Fits w m → (∀ n v, (n, v) ∈ e → C.Valid w v) →
    C.Fits w { m with loaded := Machine.setLoaded p e m.loaded }
  openFile : ∀ {w m p t program}, C.Fits w m → h.disk.LeadsTo p → h.disk.readText p = .ok t →
    h.read p.text t = .ok program →
    ∃ w', C.Later w w' ∧
      C.Fits w' { m.pushFrame { name := "global " ++ p.name } with
        exports := m.exports.push [] } ∧
      C.Serves w' ⟨p.text, m.frames.size, m.exports.size⟩ ∧
      ∀ s ∈ program, C.Code w'
        (top ⟨p.text, m.frames.size, m.exports.size⟩ [preludeFrame, builtinsFrame]) s

theorem only_exported {e e' : Exports} (h : (Likeness.only (C.Good w)).Exported e e') :
    e = e' ∧ ∀ n v, (n, v) ∈ e → C.Valid w v := by
  have he : e = e' := Bindings.Related.eq h fun _ _ _ hv => Value.eq_of_only hv
  subst he
  exact ⟨rfl, fun n v hv => Value.carries_of_only (List.forall₂_same.mp h (n, v) hv).2⟩

theorem exported_only {e : Exports} (h : ∀ n v, (n, v) ∈ e → C.Valid w v) :
    (Likeness.only (C.Good w)).Exported e e :=
  Bindings.related_refl fun p hp => h p.1 p.2 hp

theorem exported_same {s s' : Site} {m m' : Machine} (hs : C.actions.Sites w s s')
    (hm : C.actions.Machines w m m') :
    (Likeness.only (C.Good w)).Exported (m.exportsOf s.exports) (m'.exportsOf s'.exports) := by
  obtain ⟨rfl, -⟩ := hs
  obtain ⟨rfl, hm⟩ := hm
  exact exported_only fun _ _ hv => (C.holds hm).exporting.exports hv

/-- The evaluation of a file beside itself. -/
theorem Opening.evaluates {p : Path} (hC : C.Opening h p) : C.actions.Evaluates h p where
  file := by
    intro w t program ht hr
    have hopen : C.Keeps w (fun w' s => C.Serves w' s ∧
        ∀ st ∈ program, C.Code w' (top s [preludeFrame, builtinsFrame]) st) (openFile p) := by
      intro m hm
      obtain ⟨w', hl, hm', hs, hcode⟩ := hC hm ht hr
      exact .inl ⟨_, _, w', rfl, hl, hm', hs, hcode⟩
    exact hopen.agree fun _ _ _ hs => ⟨⟨rfl, hs.1⟩, fun st hst => ⟨rfl, rfl, hs.2 st hst⟩⟩
  exports := exported_same

def simulation (C : Conduct) {h : Host} (hC : C.Files h) : Simulation h where
  toActions := C.actions
  site_source hs := congrArg Site.source hs.1
  loaded := by
    rintro w m _ p - ⟨rfl, hm⟩
    cases he : m.loaded? p with
    | none => exact .none
    | some e => exact .some (exported_only ((C.holds hm).exporting.loaded? he))
  begin_loading := by
    intro w p
    refine (keeps_change fun m m' hm hm' => ?_).agree fun _ _ _ _ => trivial
    obtain ⟨-, rfl⟩ := Machine.beginLoading_eq_ok hm'
    exact hC.setLoading _ hm
  abort_loading := by
    rintro w m _ p ⟨rfl, hm⟩
    exact ⟨w, C.later_refl w, rfl, hC.setLoading _ hm⟩
  finish_loading := by
    intro w e e' p he
    obtain ⟨rfl, hvalid⟩ := only_exported he
    refine Keeps.agree (P := fun _ _ => True) ?_ fun _ _ _ _ => trivial
    refine keeps_change fun m m' hm hm' => ?_
    obtain ⟨-, rfl⟩ := Machine.finishLoading_eq_ok hm'
    exact hC.setLoading _ (hC.setLoaded p hm hvalid)
  file hp := (Opening.evaluates fun hm => hC.openFile hm hp).file
  exports := exported_same

/-! ## Runs -/

/-- Imports keep the conduct if the tasks they lead to do. -/
def Imports (C : Conduct) (h : Host) : Prop :=
  ∀ {self self' : Step}, C.actions.Follows self self' → C.actions.Loads h self self'

theorem Imports.below (hI : C.Imports h) {self self' : Step} (hf : C.actions.Follows self self') :
    C.actions.LoadsBelow h self self' :=
  fun o => hI (hf.below h o)

theorem Files.imports (hC : C.Files h) : C.Imports h := fun hf =>
  Simulation.loads (S := C.simulation hC) (fun _ => trivial) hf

/-- What may be performed ends where the machine fits. -/
theorem run_follows (hI : C.Imports h) (hv : C.Varies) (depth : Nat) :
    C.actions.Follows (run h depth) (run h depth) := by
  induction depth with
  | zero => exact Actions.follows_tooDeep _ _ (fun _ => rfl) fun _ => rfl
  | succ depth ih => exact follows_of_tasks fun w t ht => step_agrees ih (hI.below ih) ht (.inl hv)

/-- What all tasks that may be performed pass can be checked at every task. -/
theorem watched_follows (hI : C.Imports h) (hv : C.Varies) {check : Task → Machine → Prop}
    (hcheck : ∀ w m t, C.Fits w m → C.Allows w t → check t m) (alarm : Step) (depth : Nat) :
    C.actions.Follows (watched h check alarm depth) (run h depth) := by
  induction depth with
  | zero => exact Actions.follows_tooDeep _ _ (fun _ => rfl) fun _ => rfl
  | succ depth ih =>
    refine follows_of_tasks fun w t ht => ?_
    rintro m _ ⟨rfl, hm⟩
    rw [watched_of_check (hcheck w m t hm ht)]
    exact step_agrees ih (hI.below ih) ht (.inl hv) m m ⟨rfl, hm⟩

/-- Computations of one run that agree with themselves end alike whether tasks are checked or not. -/
theorem ends_eq {α : Type} {P : C.World → α → α → Prop} {x y : Eval α} {m : Machine}
    (hx : C.worlds.Agree w P x y) (hP : ∀ w' a b, P w' a b → a = b) (hm : C.Fits w m) :
    x m = y m ∧ ∃ w', C.Later w w' ∧ C.Fits w' (endOf (y m)) := by
  have he := hx m m ⟨rfl, hm⟩
  generalize x m = r, y m = s at he
  cases he with
  | @ok w' a b k _ hl hk hab =>
    obtain ⟨rfl, hk⟩ := hk
    rw [hP w' a b hab]
    exact ⟨rfl, w', hl, hk⟩
  | @error w' e k _ hl hk =>
    obtain ⟨rfl, hk⟩ := hk
    exact ⟨rfl, w', hl, hk⟩

theorem throughout_task (hI : C.Imports h) (hv : C.Varies) {check : Task → Machine → Prop}
    (hcheck : ∀ w m t, C.Fits w m → C.Allows w t → check t m) {m : Machine} (hm : C.Fits w m)
    {t : Task} (ht : C.Allows w t) (depth : Nat) :
    Throughout h depth check (fun self => self t) m := fun alarm =>
  (ends_eq (task_agrees (watched_follows hI hv hcheck alarm depth) ht)
    (fun _ _ _ => Value.eq_of_only) hm).1

theorem run_fits (hI : C.Imports h) (hv : C.Varies) {m : Machine} (hm : C.Fits w m) {t : Task}
    (ht : C.Allows w t) (depth : Nat) :
    ∃ w', C.Later w w' ∧ C.Fits w' (endOf (run h depth t m)) :=
  (ends_eq (task_agrees (run_follows hI hv depth) ht) (fun _ _ _ => Value.eq_of_only) hm).2

/-! ## Runs in which every new variant is checked -/

/-- A run that gives up at the first task that fails the check. -/
noncomputable abbrev checked (h : Host) (check : Task → Machine → Prop) : Nat → Step :=
  watched h check fun _ => throw .tooDeep

/-- Tasks that pass the check may give functions more variants. -/
def VariesOn (C : Conduct) (check : Task → Machine → Prop) : Prop :=
  ∀ {w m c l n l' ps body}, C.Fits w m → C.Code w c (.variation l n l' ps body) →
    check (.eval c (.variation l n l' ps body)) m → C.Extensible w m c n (variantHere c ps body)

variable {check : Task → Machine → Prop}

theorem variation_ends (hv : C.VariesOn check) {self : Step} {m : Machine} (hm : C.Fits w m)
    {t : Task} (ht : C.Allows w t) (hc : check t m) (hvar : t.isVariation = true) :
    C.worlds.Ends w (fun w' => (Likeness.only (C.Good w')).Matches) (step h self t m)
      (step h self t m) := by
  cases t with
  | apply | ask | wait => cases hvar
  | eval c s =>
    cases s with
    | variation l n l' ps body =>
      refine Worlds.Ends.located rfl rfl ?_ h l
      change C.worlds.Ends w _ (Eval.vary c n (variantHere c ps body) m)
        (Eval.vary c n (variantHere c ps body) m)
      rcases vary_ends hm (hv hm ht hc) with ⟨a, m', w', he, hl, hm', ha⟩ | ⟨e, m', w', he, hl, hm'⟩
      · rw [he]
        exact .ok hl ⟨rfl, hm'⟩ ha
      · have hend : C.worlds.Machines w' m' m' := ⟨rfl, hm'⟩
        rw [he]
        exact .error hl hend
    | _ => cases hvar

/-- What may be performed ends where the machine fits, if no variant is added unchecked. -/
theorem checked_follows (hI : C.Imports h) (hv : C.VariesOn check) (depth : Nat) :
    C.actions.Follows (checked h check depth) (checked h check depth) := by
  induction depth with
  | zero => exact Actions.follows_tooDeep _ _ (fun _ => rfl) fun _ => rfl
  | succ depth ih =>
    refine follows_of_tasks fun w t ht => ?_
    rintro m _ ⟨rfl, hm⟩
    by_cases hc : check t m
    · rw [checked, watched_of_check hc]
      cases hvar : t.isVariation with
      | false => exact step_agrees ih (hI.below ih) ht (.inr hvar) m m ⟨rfl, hm⟩
      | true => exact variation_ends hv hm ht hc hvar
    · rw [checked, watched_of_not_check hc]
      exact Worlds.agree_throw .tooDeep m m ⟨rfl, hm⟩

end Conduct

end ModuleScript
