import ModuleScript.Proofs.Afresh.Unchanged
import ModuleScript.Proofs.Conduct.Staged
import ModuleScript.Proofs.Imports.Importers
import ModuleScript.Proofs.Imports.Isolated
import ModuleScript.Proofs.Modules.Registering
import ModuleScript.Proofs.Modules.Rollback
import ModuleScript.Proofs.Paths

/-!
# Imports that fail

A file whose evaluation fails is neither loaded nor being loaded afterwards, whatever it has imported
before. Of its modules there are only those left that it had declared to the end when it failed, and
these stay registered. If there are none, the file can be imported again as if for the first time.
-/

set_option autoImplicit false

namespace ModuleScript

open Eval Session

/-- When the file is evaluated on the machine, statements at its beginning come to their ends, and one
of them declares the module or one around it. -/
def Completes (h : Host) (self : Step) (p : Path) (m : Machine) (q : ModulePath) : Prop :=
  ∃ t passed rest v m' l isPublic n body, h.disk.readText p = .ok t ∧
    h.read p.text t = .ok (passed ++ rest) ∧
    self.stmts (m.topFor p) passed (m.opened p) = .ok v m' ∧
    .module l isPublic n body ∈ passed ∧ (⟨p.text, [n]⟩ : ModulePath).within q = true

/-- The machine on which an import of the file has failed, as far as the file itself goes. -/
structure Machine.Retriable (m : Machine) (h : Host) (self : Step) (p : Path) (k : Machine) : Prop where
  unloaded : k.loaded? p = none
  loading : k.loading = m.loading
  retained : ∀ {q e}, m.loaded? q = some e → k.loaded? q = some e
  modules : (∀ q i, m.module? q = some i → q.source ≠ p.text) →
    ∀ q i, k.module? q = some i → q.source = p.text → Completes h self p (m.begun p) q

namespace Retrying

variable {h : Host} {depth : Nat} {w : Work} {relative importer : Text} {m k : Machine} {p : Path}
  {f : Failure}

/-! ## The files loaded and being loaded -/

theorem lasts_true : Conduct.Lasts fun _ => True where
  change _ _ := trivial
  pushFrame _ _ := trivial
  newFunction _ := trivial
  register _ _ _ := trivial

theorem opening_true (h : Host) (p : Path) : (Conduct.ofLasting lasts_true).Opening h p :=
  fun _ _ _ => ⟨⟨⟩, trivial, trivial, trivial, fun _ _ => trivial⟩

theorem files_but_true (h : Host) : (Conduct.ofLasting lasts_true).FilesBut h [] where
  setLoading _ _ := trivial
  setLoaded _ _ _ _ := trivial
  opening _ _ := opening_true h _

/-- A file is evaluated to the end at the stage at which it begins to be. -/
theorem evaluateFile_stage (h : Host) (depth : Nat) (w : Work) (p : Path) (m : Machine) :
    (m.begun p).stage.Fits (endOf (evaluateFile h ((run h depth).below h w) p (m.begun p))) := by
  let C := (Conduct.ofLasting lasts_true).staged []
  have hall : C.actions.Follows (run h depth) (run h depth) :=
    Conduct.run_follows (Conduct.staged_imports (files_but_true h)) trivial depth
  have hopening : C.Opening h p := Conduct.opening_staged (opening_true h p)
  have hfits : C.Fits ((m.begun p).stage, ⟨⟩) (m.begun p) :=
    ⟨⟨Stage.fits_stage _, nofun⟩, trivial⟩
  have hbelow := Actions.Follows.below hall h w
  obtain ⟨u, hl, -, hend⟩ :=
    (Actions.evaluateFile_agrees hopening.evaluates hbelow _ _ ⟨rfl, hfits⟩).machines
  have hstage : u.1 = (m.begun p).stage := hl.1.symm
  exact hstage ▸ hend.1.1

/-- If an import fails whose file was not being loaded, then it fails at once or the file does. -/
theorem load_eq_error (hp : h.disk.resolveImport relative importer = .ok p) (hfresh : p ∉ m.loading)
    (he : load h ((run h depth).below h w) relative importer m = .error f k) :
    m.loaded? p = none ∧ (k = m ∨
      ∃ k', evaluateFile h ((run h depth).below h w) p (m.begun p) = .error f k' ∧
        k = { k' with loading := m.loading }) := by
  have hn : m.loaded? p = none := by
    cases hn : m.loaded? p with
    | none => rfl
    | some e =>
      rw [load_resolved _ hp, hn] at he
      cases he
  refine ⟨hn, ?_⟩
  rcases load_cases h relative importer m with ⟨g, hg⟩ | ⟨q, e, -, hq⟩ | ⟨q, hq, -, -, hload⟩
  · rw [hg] at he
    cases he
    exact .inl rfl
  · rw [hq] at he
    cases he
  · rw [hp] at hq
    cases hq
    rw [hload] at he
    have hstage := evaluateFile_stage h depth w p m
    cases hr : evaluateFile h ((run h depth).below h w) p (m.begun p) with
    | ok e k' =>
      rw [hr] at hstage he
      have hk : (m.begun p).stage.Fits k' := hstage
      rw [Stage.loadEnd_of_ok hfresh hk] at he
      cases he
    | error g k' =>
      rw [hr] at hstage he
      have hk : (m.begun p).stage.Fits k' := hstage
      rw [Stage.loadEnd_of_error hfresh hk] at he
      cases he
      exact .inr ⟨k', rfl, rfl⟩

/-! ## The modules of the file -/

/-- The modules at or below those that the statements declare at the top of a source. -/
def Below (source : Text) (ss : List Stmt) (q : ModulePath) : Prop :=
  ∃ l isPublic n body, .module l isPublic n body ∈ ss ∧
    (⟨source, [n]⟩ : ModulePath).within q = true

theorem Below.child {source : Text} {ss : List Stmt} {q : ModulePath} (hq : Below source ss q)
    (n : Ident) : Below source ss (q.child n) := by
  obtain ⟨l, isPublic, x, body, hs, hw⟩ := hq
  obtain ⟨hsource, hnames⟩ := ModulePath.within_iff.mp hw
  exact ⟨l, isPublic, x, body, hs,
    ModulePath.within_iff.mpr ⟨hsource, hnames.trans (List.prefix_append _ _)⟩⟩

/-- While the file is being loaded, its modules lie below those that the statements declare. -/
abbrev declaring (p : Path) (ss : List Stmt) : Conduct :=
  (Conduct.registering p.text (Below p.text ss) fun _ n hq => hq.child n).staged [p]

variable {ss : List Stmt}

theorem files_but (hd : h.disk.directory.Proper)
    (hp : h.disk.resolveImport relative importer = .ok p) (ss : List Stmt) :
    (Conduct.registering p.text (Below p.text ss) fun _ n hq => hq.child n).FilesBut h [p] where
  setLoading _ hm := hm.of_eq rfl rfl rfl
    (hm.holds.of_exporting rfl rfl (hm.holds.exporting.of_eq rfl rfl))
  setLoaded _ _ hm he := hm.of_eq rfl rfl rfl
    (hm.holds.of_exporting rfl rfl (hm.holds.exporting.setLoaded _ he))
  opening {relative' importer' q} hq hne := by
    refine Conduct.registering_opening fun htext => hne ?_
    rw [Disk.resolveImport_injective hd hq hp htext]
    exact .head _

theorem declaring_follows (hd : h.disk.directory.Proper)
    (hp : h.disk.resolveImport relative importer = .ok p) (ss : List Stmt) (depth : Nat) :
    (declaring p ss).actions.Follows (run h depth) (run h depth) :=
  Conduct.run_follows (Conduct.staged_imports (files_but hd hp ss)) trivial depth

/-- Statements at the top of the file declare its modules where they are found. -/
theorem declaring_top {w : Machine.Belonging} (hw : w m.frames.size none) {s : Stmt}
    (ho : Orderly s) (hs : s ∈ ss) :
    (Conduct.registering p.text (Below p.text ss) fun _ n hq => hq.child n).Code w (m.topFor p) s := by
  refine ⟨ho, ?_⟩
  rintro l isPublic n body rfl
  exact ⟨none, hw, fun _ => ⟨l, isPublic, n, body, hs,
    ModulePath.within_iff.mpr ⟨rfl, List.prefix_rfl⟩⟩⟩

theorem opened_registers (hm : m.Holds (Value.Carries Closure.Orderly))
    (hnone : ∀ q i, (q, i) ∈ m.registry → q.source ≠ p.text) (ss : List Stmt) :
    (m.opened p).Registers p.text (Below p.text ss) fun i o => i = m.frames.size ∧ o = none where
  registered hq hs := absurd hs (hnone _ _ hq)
  frame := by
    rintro i o ⟨rfl, rfl⟩
    refine ⟨by simp [Machine.opened, Machine.pushFrame], ?_⟩
    change ((m.pushFrame _).frame m.frames.size).record.map _ = none
    rw [Machine.frame_pushFrame_size]
    rfl
  named := by
    rintro i q ⟨-, hq⟩
    cases hq
  holds := (hm.pushFrame fun hv => by cases hv).pushExports

section Failed

variable (hd : h.disk.directory.Proper) (hp : h.disk.resolveImport relative importer = .ok p)
  {passed : List Stmt} {s : Stmt} {m' : Machine} {q : ModulePath} {i : RecordId}

include hd hp

/-- Statements that come to their ends declare modules of the file where they are found only. -/
theorem passed_registers (hm : m.Holds (Value.Carries Closure.Orderly))
    (hnone : ∀ q i, (q, i) ∈ m.registry → q.source ≠ p.text) (ho : ∀ s ∈ passed, Orderly s) {v : Value}
    (hpassed : ((run h depth).below h w).stmts ((m.begun p).topFor p) passed ((m.begun p).opened p) =
      .ok v m') :
    ∃ u, (declaring p passed).Fits u m' ∧ u.2 m.frames.size none := by
  have hbegun : (m.begun p).Holds (Value.Carries Closure.Orderly) :=
    hm.of_exporting rfl rfl (hm.exporting.of_eq rfl rfl)
  have hfits : (declaring p passed).Fits
      ((m.begun p).stage, fun i o => i = m.frames.size ∧ o = none) ((m.begun p).opened p) :=
    ⟨⟨(Stage.fits_stage _).of_eq rfl rfl, fun q hq => List.mem_append_right _ hq⟩,
      opened_registers (m := m.begun p) hbegun hnone passed⟩
  have hcode : ∀ s ∈ passed, (declaring p passed).Code
      ((m.begun p).stage, fun i o => i = m.frames.size ∧ o = none) ((m.begun p).topFor p) s :=
    fun s hs => declaring_top (m := m.begun p) ⟨rfl, rfl⟩ (ho s hs) hs
  have hall := Actions.Follows.below (declaring_follows hd hp passed depth) h w
  obtain ⟨u, hl, -, hend⟩ := (Actions.stmts_agree hall
    (fun s hs => ⟨rfl, hcode s hs⟩) _ _ ⟨rfl, hfits⟩).machines
  rw [hpassed] at hend
  exact ⟨u, hend, hl.2 _ _ ⟨rfl, rfl⟩⟩

/-- The statement that fails leaves none of its own modules. -/
theorem failed_registers {w : (declaring p passed).World} (hfits : (declaring p passed).Fits w m')
    (htop : w.2 m.frames.size none) (ho : Orderly s)
    (hfail : run h depth (.eval ((m.begun p).topFor p) s) m' = .error f k)
    (hq : (q, i) ∈ k.registry) (hs : q.source = p.text) : Below p.text passed q := by
  have hm' : m'.Registers p.text (Below p.text passed) w.2 := hfits.2
  have hmono : ∀ q, Below p.text passed q → Below p.text (passed ++ [s]) q :=
    fun q ⟨l, isPublic, n, body, hmem, hw⟩ =>
      ⟨l, isPublic, n, body, List.mem_append_left _ hmem, hw⟩
  have hallows : (declaring p (passed ++ [s])).Allows w (.eval ((m.begun p).topFor p) s) :=
    declaring_top (m := m.begun p) htop ho (by simp)
  have hfits' : (declaring p (passed ++ [s])).Fits w m' := ⟨hfits.1, hm'.mono hmono⟩
  obtain ⟨w', -, -, hk⟩ := Conduct.run_fits
    (Conduct.staged_imports (files_but hd hp (passed ++ [s]))) trivial hfits' hallows depth
  rw [hfail] at hk
  obtain ⟨l, isPublic, n, body, hmem, hw⟩ := Machine.Registers.registered hk hq hs
  rcases List.mem_append.mp hmem with hmem | hmem
  · exact ⟨l, isPublic, n, body, hmem, hw⟩
  · obtain rfl := List.mem_singleton.mp hmem
    rcases Rollback.failed_cases hfail with rfl | ⟨-, k', rfl⟩
    · exact hm'.registered hq hs
    · have hpath : m'.pathFor ((m.begun p).topFor p) n = ⟨p.text, [n]⟩ :=
        hm'.pathFor (c := (m.begun p).topFor p) (o := none) htop n
      rw [Rollback.registry_restore, hpath] at hq
      have hdropped := (List.mem_filter.mp hq).2
      dsimp only at hdropped
      rw [hw] at hdropped
      cases hdropped

/-- When the evaluation of the file has failed, only modules are left of it that it had declared to the
end, if there were none before. -/
theorem completes_of_error (hm : m.Holds (Value.Carries Closure.Orderly))
    (hnone : ∀ q i, (q, i) ∈ m.registry → q.source ≠ p.text)
    (he : evaluateFile h ((run h depth).below h w) p (m.begun p) = .error f k)
    (hq : (q, i) ∈ k.registry) (hs : q.source = p.text) :
    Completes h ((run h depth).below h w) p (m.begun p) q := by
  rcases evaluateFile_eq_error (steady_ask_below h depth w) he with
    rfl | ⟨t, passed, s, rest, v, m', ht, hr, hpassed, hfail⟩
  · exact absurd hs (hnone q i hq)
  have ho := orderly_of_read hr
  obtain ⟨u, hfits, htop⟩ :=
    passed_registers hd hp hm hnone (fun s hs => ho s (List.mem_append_left _ hs)) hpassed
  rw [below_run] at hfail
  obtain ⟨l, isPublic, n, body, hmem, hw⟩ :=
    failed_registers hd hp hfits htop (ho s (by simp)) hfail hq hs
  exact ⟨t, passed, s :: rest, v, m', l, isPublic, n, body, ht, hr, hpassed, hmem, hw⟩

end Failed

/-! ## Imports -/

theorem retriable_of_error (hd : h.disk.directory.Proper)
    (hp : h.disk.resolveImport relative importer = .ok p)
    (hm : m.Holds (Value.Carries Closure.Orderly)) (hfresh : p ∉ m.loading)
    (he : load h ((run h depth).below h w) relative importer m = .error f k) :
    m.Retriable h ((run h depth).below h w) p k := by
  obtain ⟨hn, rfl | ⟨k', hfile, rfl⟩⟩ := load_eq_error hp hfresh he
  · exact ⟨hn, rfl, id, fun hnone q i hq hs => absurd hs (hnone q i hq)⟩
  · have hstage := evaluateFile_stage h depth w p m
    rw [hfile] at hstage
    have hk : (m.begun p).stage.Fits k' := hstage
    refine ⟨(hk.pending p (by simp)).trans hn, rfl, fun he => hk.retained he,
      fun hnone q i hq hs => ?_⟩
    refine completes_of_error hd hp hm (fun r j hr => ?_) hfile (Machine.mem_registry_of_module? hq) hs
    cases hmodule : m.module? r with
    | none => exact absurd hr (Machine.notMem_registry_of_module? hmodule j)
    | some j' => exact hnone r j' hmodule

/-- To load a file that fails leaves untouched all that there was, and what it has made is not come to
by anything later but through modules and files. -/
theorem untouched_of_error (hm : m.Sealed)
    (hin : Throughout h depth m.Inward (fun self => load h (self.below h w) relative importer) m)
    (he : load h ((run h depth).below h w) relative importer m = .error f k) : m.Untouched k ∧ m.SameShown h k := by
  have huntouched := Isolation.load_untouched h depth w relative importer m
  have hload : load h ((Conduct.checked h m.Inward depth).below h w) relative importer m =
      .error f k :=
    (hin _).trans he
  rw [hload] at huntouched
  let S := Conduct.ranged.simulation (Conduct.ranged_files h)
  have hall : S.Follows (run h depth) (run h depth) :=
    Conduct.run_follows (Conduct.ranged_files h).imports trivial depth
  obtain ⟨u, hl, -, hu, -⟩ := (Simulation.load_ends (S := S) (w := m.extent) (hall.below h w) relative
    importer ⟨rfl, rfl, hm.ranged⟩ fun _ _ => trivial).machines
  rw [he] at hu
  subst hu
  exact ⟨huntouched, Machine.sameShown_of_untouched hm huntouched hl.functions h⟩

/-- An import whose file has failed while it was being loaded can be tried again. If the file has
declared no module to the end there is nothing left of its own; and if no function from before has been
given another variant meanwhile, what comes later shows the same as if the import had not been tried,
unless it comes to modules or files that are there only since. -/
def Retries (h : Host) (t : Task) (m : Machine) : Prop :=
  ∀ c l names path p, t = .eval c (.imports l names path) →
    h.disk.resolveImport path c.site.source = .ok p → p ∉ m.loading →
    ∀ depth f k,
      load h ((run h depth).below h (.node .imports l)) path c.site.source m = .error f k →
        m.Retriable h ((run h depth).below h (.node .imports l)) p k ∧
          (Throughout h depth m.Inward
              (fun self => load h (self.below h (.node .imports l)) path c.site.source) m →
            m.Untouched k ∧ m.Sealed ∧ m.SameShown h k)

variable {commands : List Command} {s : Stmt}

theorem orderly_of_functionCode (hs : Importers.FunctionCode h commands s) : Orderly s := by
  obtain ⟨source, program, hp, hs⟩ := hs
  obtain ⟨code, r, hr, hin⟩ := hs.liesIn
  have ho : ∀ s ∈ program, Orderly s := by
    cases hp with
    | given hg =>
      cases hg with
      | prelude hread => exact orderly_of_read hread
      | source _ hread => exact orderly_of_read hread
      | file _ _ hread => exact orderly_of_read hread
    | file _ hread => exact orderly_of_read hread
  exact (ho r hr).within hin

/-- In every session no function that there is declares modules. -/
theorem holds_orderly (h : Host) (input : Text) (history : List Command) (command : Command) :
    Throughout h h.depth (fun _ m => m.Holds (Value.Carries Closure.Orderly)) (command.perform h)
      (after h input history).machine := by
  have hserving := Importers.standing_serving h (history ++ [command])
  have hblank : (Importers.standing h (history ++ [command])).Fits ⟨⟩ (blank input) :=
    blank_holds (fun _ => Value.carries_plain rfl) input
  obtain ⟨-, w, -, hm⟩ := Conduct.after_fits hserving hblank fun c hc =>
    List.mem_append_left [command] hc
  refine Conduct.throughout_perform hserving (fun w k t hk _ => ?_) hm (by simp) h.depth
  exact Machine.Holds.mono hk fun v hv => hv.mono fun f hf v hv => orderly_of_functionCode (hf v hv)

/-- The file declares a module and fails then. -/
def failingHost : Host := hostWith [(["p.rs"], "mod M \x7b\n let a = 1\n\x7d\n1 / 0\n")]

end Retrying

end ModuleScript
