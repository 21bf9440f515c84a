import ModuleScript.Proofs.Conduct.Staged
import ModuleScript.Proofs.Congruence.Basic

/-!
# The stack of files being loaded

A run can keep account of the loads around each task: a task that an import leads to stands in the
load of its file and in all loads around the import. At every task the files being loaded are those
whose loads it stands in, outermost first, and none of them twice. However a command ends, no file is
being loaded any more; and what has been loaded stays loaded.
-/

set_option autoImplicit false

namespace ModuleScript

open Eval Session

/-- The file in whose load the tasks stand that an import leads to. -/
def Task.opens (h : Host) : Task → List Path
  | .eval c (.imports _ _ path) =>
    match h.disk.resolveImport path c.site.source with
    | .ok p => [p]
    | .error _ => []
  | _ => []

/-- The file in whose load the program of a command runs. -/
def Session.Command.opens (h : Host) : Command → List Path
  | .source _ _ => []
  | .file name => [h.disk.directory.resolve (Path.ofText name)]

namespace Eval

open Classical in
/-- Performs tasks, each of which stands in the loads of the files `around` it. A task that fails the
check is handed to `alarm`. -/
noncomputable def attended (h : Host) (check : List Path → Task → Machine → Prop) (alarm : Step) :
    Nat → List Path → Step
  | 0, _ => fun _ => throw .tooDeep
  | depth + 1, around => fun t m =>
    if check around t m then step h (attended h check alarm depth (around ++ t.opens h)) t m
    else alarm t m

theorem attended_of_check {h : Host} {check : List Path → Task → Machine → Prop}
    {around : List Path} {t : Task} {m : Machine} (ht : check around t m) (alarm : Step)
    (depth : Nat) : attended h check alarm (depth + 1) around t m =
      step h (attended h check alarm depth (around ++ t.opens h)) t m :=
  if_pos ht

end Eval

theorem Stage.Fits.trans {m k n : Machine} (hk : m.stage.Fits k) (hn : k.stage.Fits n) :
    m.stage.Fits n where
  loading := hn.loading.trans hk.loading
  pending q hq := by
    have hq' : q ∈ k.stage.loading := by
      rw [show k.stage.loading = m.stage.loading from hk.loading]
      exact hq
    exact (hn.pending q hq').trans (hk.pending q hq)
  retained he := hn.retained (hk.retained he)

namespace LoadStack

variable {h : Host} {around : List Path} {self self' : Step} {m k n : Machine} {p : Path}

theorem fits_of_modest (hk : m.Modest k) : m.stage.Fits k :=
  (Stage.fits_stage m).of_eq hk.loading hk.loaded

/-- While these files are being loaded both computations do the same, and end while they are. -/
def staying (around : List Path) : Congruence where
  Rel x y := ∀ m, m.loading = around → x m = y m ∧ m.stage.Fits (endOf (y m))
  own hx m _ := ⟨rfl, fits_of_modest (hx.ends m)⟩
  bind {_ _ x y f g} hx hf m hm := by
    obtain ⟨he, hk⟩ := hx m hm
    cases hy : y m with
    | ok a k =>
      rw [hy] at he hk
      rw [bind_of_ok he, bind_of_ok hy]
      obtain ⟨he', hn⟩ := hf a k (hk.loading.trans hm)
      exact ⟨he', hk.trans hn⟩
    | error e k =>
      rw [hy] at he hk
      rw [bind_of_error he, bind_of_error hy]
      exact ⟨rfl, hk⟩
  mending {_ x y mend} hmend hx m hm := by
    obtain ⟨he, hk⟩ := hx m hm
    refine ⟨?_, ?_⟩
    · exact mending_congr he mend
    · rcases endOf_mending y mend m with hend | hend
      · rw [hend]
        exact hk
      · rw [hend]
        exact hk.trans (fits_of_modest (hmend _))

theorem staying_places (h : Host) (l : Location) : (staying around).Places h l := by
  intro _ x y hx m hm
  obtain ⟨he, hk⟩ := hx m hm
  rw [endOf_located]
  unfold Eval.located
  rw [he]
  exact ⟨rfl, hk⟩

theorem staying_placesAt (h : Host) (t : Task) : (staying around).PlacesAt h t := by
  cases t with
  | eval c s => exact staying_places h s.location
  | apply | ask | wait => trivial

theorem staying_lift {α : Type} (r : Except Failure α) :
    (staying around).Rel (Eval.lift r) (Eval.lift r) :=
  fun m _ => ⟨rfl, fits_of_modest ((reads_lift r).modest_end m)⟩

/-- A file is loaded in the load of no other files than those around, and itself. -/
theorem load_staying {relative importer : Text}
    (hf : ∀ p, h.disk.resolveImport relative importer = .ok p → p ∉ around →
      (staying (around ++ [p])).Follows self self') :
    (staying around).Rel (load h self relative importer) (load h self' relative importer) := by
  intro m hm
  rcases load_cases h relative importer m with ⟨f, he⟩ | ⟨p, e, -, he⟩ | ⟨p, hp, hn, hfresh, he⟩
  · rw [he, he]
    exact ⟨rfl, Stage.fits_stage m⟩
  · rw [he, he]
    exact ⟨rfl, Stage.fits_stage m⟩
  · have hreads : (staying (around ++ [p])).Reads h p := fun _ _ => staying_lift _
    have hfile := Congruence.evaluateFile (hf p hp (hm ▸ hfresh)) hreads
    have hbegun : (m.begun p).loading = around ++ [p] := congrArg (· ++ [p]) hm
    obtain ⟨hsame, hfits⟩ := hfile (m.begun p) hbegun
    rw [he, he, hsame]
    refine ⟨rfl, ?_⟩
    cases hr : evaluateFile h self' p (m.begun p) with
    | ok e k =>
      rw [hr] at hfits
      change (m.begun p).stage.Fits k at hfits
      rw [Stage.loadEnd_of_ok hfresh hfits]
      exact (Stage.fits_stage m).finished hn hfresh hfits e
    | error f k =>
      rw [hr] at hfits
      change (m.begun p).stage.Fits k at hfits
      rw [Stage.loadEnd_of_error hfresh hfits]
      exact (Stage.fits_stage m).aborted hfits

/-! ## Runs -/

/-- The files being loaded are those around, and none of them twice. -/
def Stacked (around : List Path) (_ : Task) (m : Machine) : Prop :=
  m.loading = around ∧ around.Nodup

theorem nodup_append (hn : around.Nodup) (hp : p ∉ around) : (around ++ [p]).Nodup :=
  List.nodup_append.mpr ⟨hn, List.nodup_singleton p, fun _ hq _ hr he =>
    hp (List.mem_singleton.mp hr ▸ he ▸ hq)⟩

theorem opens_of_not_import {t : Task} (ht : t.isImport = false) : t.opens h = [] := by
  cases t with
  | apply | ask | wait => rfl
  | eval c s =>
    cases s with
    | imports l names path => cases ht
    | _ => rfl

theorem attended_staying (h : Host) (alarm : Step) (depth : Nat) (hn : around.Nodup) :
    (staying around).Follows (attended h Stacked alarm depth around) (run h depth) := by
  induction depth generalizing around with
  | zero => exact fun t m hm => ⟨rfl, Stage.fits_stage m⟩
  | succ depth ih =>
    intro t m hm
    rw [attended_of_check ⟨hm, hn⟩]
    cases ht : t.isImport with
    | false =>
      rw [opens_of_not_import ht, List.append_nil]
      exact Congruence.step_of_not_import (ih hn) (staying_placesAt h t) ht m hm
    | true =>
      cases t with
      | apply | ask | wait => cases ht
      | eval c s =>
        cases s with
        | imports l names path =>
          refine staying_places h l (Congruence.imports ?_ names) m hm
          refine load_staying fun p hp hfresh => ?_
          have hopens : Task.opens h (.eval c (.imports l names path)) = [p] := by
            simp only [Task.opens, hp]
          rw [hopens]
          exact (ih (nodup_append hn hfresh)).below h _
        | _ => cases ht

/-! ## Commands -/

theorem guarded_staying {α : Type} {x y : Eval α} (h : Host) (hx : (staying around).Rel x y) :
    (staying around).Rel (guarded h x) (guarded h y) := by
  intro m hm
  obtain ⟨he, hk⟩ := hx m hm
  unfold guarded
  split
  · exact ⟨rfl, Stage.fits_stage m⟩
  · rw [he]
    refine ⟨rfl, ?_⟩
    generalize y m = r at hk
    cases r with
    | ok a k => exact hk
    | error e k => cases e <;> exact hk

theorem runProgram_staying (hf : (staying around).Follows self self') (source : Text)
    (program : Program) :
    (staying around).Rel (runProgram h self source program) (runProgram h self' source program) :=
  guarded_staying h (Congruence.execute hf source _ _ program)

theorem fileProgram_staying (hf : (staying around).Follows self self') (name text : Text) :
    (staying around).Rel (fileProgram h self name text) (fileProgram h self' name text) :=
  (staying around).bind (staying_lift _) fun program => runProgram_staying hf _ program

/-- Where no file is being loaded, the file that a command names is loaded around its program. -/
theorem perform_file {name text : Text} (hm : m.loading = [])
    (ht : h.disk.readText (Path.ofText name) = .ok text)
    (hp : h.disk.directory.resolve (Path.ofText name) = p) :
    (Command.file name).perform h self m =
      match fileProgram h self name text (m.begun p) with
      | .ok (v, exports) k =>
        (change (fun m => m.finishLoading p (m.exportsOf exports)) >>= fun _ => pure v) k
      | .error f k => .error f (k.abortLoading p) := by
  have hfresh : p ∉ m.loading := hm ▸ List.not_mem_nil
  have hlift : lift (Failure.lift (h.disk.readText (Path.ofText name))) m = .ok text m := by
    rw [ht]
    rfl
  have hperform : (Command.file name).perform h self m =
      (mending (fileProgram h self name text) (·.abortLoading p) >>= fun r =>
        change (fun m => m.finishLoading p (m.exportsOf r.2)) >>= fun _ => pure r.1)
        (m.begun p) := by
    unfold Command.perform
    dsimp only
    rw [bind_of_ok hlift, hp, bind_of_ok (change_of_ok (Machine.beginLoading_of_notMem hfresh))]
    rfl
  rw [hperform]
  cases hr : fileProgram h self name text (m.begun p) with
  | ok r k =>
    rw [bind_of_ok (mending_of_ok _ hr)]
  | error f k =>
    rw [bind_of_error (mending_of_error _ hr)]

/-- A file loaded before is kept, unless the command is to load just that file again and succeeds. -/
def Keeps (h : Host) (command : Command) (m : Machine) (r : Outcome) : Prop :=
  ∀ p e, m.loaded? p = some e → p ∉ command.opens h ∨ (∃ f k, r = .error f k) →
    (endOf r).loaded? p = some e

/-- A load that ends well: its file is no longer being loaded, and no other file has new exports. -/
theorem finish_load {e : Machine → Exports} {v : Value} {k : Machine} (hk : k.loading = [p]) :
    ∃ k', (change (fun m => m.finishLoading p (e m)) >>= fun _ => pure v) k = .ok v k' ∧
      k'.loading = [] ∧ ∀ q, p ≠ q → k'.loaded? q = k.loaded? q := by
  have hin : p ∈ k.loading := hk ▸ .head _
  refine ⟨_, bind_of_ok (change_of_ok (Machine.finishLoading_of_mem hin _)), ?_, fun q hpq => ?_⟩
  · change k.loading.erase p = []
    rw [hk, List.erase_cons_head]
  · exact (k.loaded?_setLoaded p q _).trans (if_neg hpq)

section Commands

variable (h : Host) (alarm : Step) (depth : Nat)

theorem perform_attended_source (name text : Text) (hm : m.loading = []) :
    (Command.source name text).perform h (attended h Stacked alarm depth []) m =
        (Command.source name text).perform h (run h depth) m ∧
      m.stage.Fits (endOf ((Command.source name text).perform h (run h depth) m)) := by
  have hf : (staying []).Follows (attended h Stacked alarm depth []) (run h depth) :=
    attended_staying h alarm depth List.nodup_nil
  have hsource : (staying []).Rel
      ((Command.source name text).perform h (attended h Stacked alarm depth []))
      ((Command.source name text).perform h (run h depth)) :=
    (staying []).bind (staying_lift _) fun program =>
      (staying []).bind (runProgram_staying hf name program) fun _ => Congruence.pure _
  exact hsource m hm

theorem perform_attended_file {name text : Text} (hm : m.loading = [])
    (ht : h.disk.readText (Path.ofText name) = .ok text)
    (hp : h.disk.directory.resolve (Path.ofText name) = p) :
    (Command.file name).perform h (attended h Stacked alarm depth [p]) m =
        (Command.file name).perform h (run h depth) m ∧
      (endOf ((Command.file name).perform h (run h depth) m)).loading = [] ∧
      Keeps h (.file name) m ((Command.file name).perform h (run h depth) m) := by
  have hopens : (Command.file name).opens h = [p] := by rw [← hp]; rfl
  have hbegun : (m.begun p).loading = [p] := by simp [hm]
  have hf : (staying [p]).Follows (attended h Stacked alarm depth [p]) (run h depth) :=
    attended_staying h alarm depth (List.nodup_singleton p)
  obtain ⟨he, hfits⟩ := fileProgram_staying hf name text (m.begun p) hbegun
  unfold Keeps
  rw [hopens, perform_file hm ht hp, perform_file hm ht hp, he]
  refine ⟨rfl, ?_⟩
  cases hr : fileProgram h (run h depth) name text (m.begun p) with
  | error f k =>
    rw [hr] at hfits
    refine ⟨?_, fun q e hq _ => hfits.retained hq⟩
    change k.loading.erase p = []
    rw [show k.loading = [p] from hfits.loading.trans hbegun, List.erase_cons_head]
  | ok r k =>
    rw [hr] at hfits
    have hloading : k.loading = [p] := hfits.loading.trans hbegun
    obtain ⟨k', hend, hdone, hothers⟩ := finish_load (e := (·.exportsOf r.2)) (v := r.1) hloading
    dsimp only
    rw [hend]
    refine ⟨hdone, fun q e hq hkept => ?_⟩
    rcases hkept with hne | ⟨f, k'', hfail⟩
    · exact (hothers q fun hpq => hne (hpq ▸ .head _)).trans (hfits.retained hq)
    · cases hfail

theorem perform_attended (command : Command) (hm : m.loading = []) :
    command.perform h (attended h Stacked alarm depth (command.opens h)) m =
        command.perform h (run h depth) m ∧
      (endOf (command.perform h (run h depth) m)).loading = [] ∧
      Keeps h command m (command.perform h (run h depth) m) := by
  cases command with
  | source name text =>
    obtain ⟨he, hfits⟩ := perform_attended_source h alarm depth name text hm
    exact ⟨he, hfits.loading.trans hm, fun p e hp _ => hfits.retained hp⟩
  | file name =>
    cases ht : h.disk.readText (Path.ofText name) with
    | ok text => exact perform_attended_file h alarm depth hm ht rfl
    | error f =>
      have hperform : ∀ self, (Command.file name).perform h self m = .error (.fault f) m := by
        intro self
        refine bind_of_error ?_
        rw [ht]
        rfl
      rw [hperform, hperform]
      exact ⟨rfl, hm, fun _ _ hp _ => hp⟩

end Commands

/-! ## Sessions -/

theorem run_staying (h : Host) (depth : Nat) (hn : around.Nodup) :
    (staying around).Follows (run h depth) (run h depth) := fun t m hm =>
  ⟨rfl, (attended_staying h (run h depth) depth hn t m hm).2⟩

theorem start_loading (h : Host) (input : Text) : (start h input).machine.loading = [] := by
  rw [start_machine]
  split
  · have hprelude : (staying []).Rel (loadPrelude h) (loadPrelude h) :=
      (staying []).bind (staying_lift _) fun program =>
        (staying []).bind (Congruence.execute (run_staying h h.ownDepth List.nodup_nil) _ _ _ program)
          fun _ => Congruence.pure _
    exact (hprelude (blank input) rfl).2.loading
  · rfl

theorem after_loading (h : Host) (input : Text) (history : List Command) :
    (after h input history).machine.loading = [] := by
  induction history using List.reverseRecOn with
  | nil => exact start_loading h input
  | append_singleton history command ih =>
    have hend := (perform_attended h h.runner h.depth command ih).2.1
    rw [after_machine]
    exact hend

end LoadStack

end ModuleScript
