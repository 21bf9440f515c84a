import ModuleScript.Proofs.Conduct.Sessions
import ModuleScript.Proofs.Imports.Runs
import ModuleScript.Proofs.Modules.Rollback

/-!
# Every file is evaluated once

A session that is given the main file of a program evaluates every file the main file reaches, each
once, and each before the statement that follows an import through which it is reached. If there is
a circle of imports, the session fails with a report of it, and enters no file twice either.
-/

set_option autoImplicit false

namespace ModuleScript

open Eval Session

/-! ## The machine at the start of a session -/

theorem prelude_importFree {h : Host} {program : Program}
    (hr : h.read "<prelude>" preludeSource = .ok program) : ∀ s ∈ program, ImportFree s := by
  have hall : (readProgram "<prelude>" preludeSource).toOption.all
      (·.all (Stmt.importFreeTo 16)) = true := by decide +kernel
  rw [program_of_read hr] at hall
  exact fun s hs => .of_importFreeTo (List.all_eq_true.mp hall s hs)

theorem ImportFree.start_idle (h : Host) (input : Text) :
    ImportFree.Idle (blank input) (start h input).machine := by
  have hblank : (blank input).ImportFree :=
    blank_holds (fun _ => Value.carries_plain rfl) input
  have hload : ImportFree.Idle (blank input) (endOf (loadPrelude h (blank input))) := by
    cases hr : h.read "<prelude>" preludeSource with
    | error e =>
      rw [endOf_loadPrelude_of_error hr]
      exact ⟨hblank, rfl, rfl⟩
    | ok program =>
      have hstmts := ImportFree.stmts_idle (h := h)
        (c := top ⟨"<prelude>", preludeFrame, (blank input).exports.size⟩ [builtinsFrame])
        (hblank.pushExports) (prelude_importFree hr) h.ownDepth
      rw [endOf_loadPrelude hr]
      exact ⟨hstmts.importFree, hstmts.loaded, hstmts.loading⟩
  unfold start
  by_cases hp : h.hasPrelude = true
  · rw [if_pos hp]
    cases hr : loadPrelude h (blank input) <;> rw [hr] at hload <;> exact hload
  · rw [if_neg hp]
    exact ⟨hblank, rfl, rfl⟩

namespace Project

variable {P : Project} {m : Machine}

theorem Ends.guarded {α : Type} {before : Machine} {log : List Event} {x : Logged α} {h : Host}
    {well : α → Machine → List Event → Prop} (hx : P.Ends before log well (x m)) :
    P.Ends before log well (Logged.under (Session.guarded h) x m) := by
  unfold Logged.under Session.guarded
  rcases hr : x m with ⟨more, r⟩
  rw [hr] at hx
  dsimp only
  split
  · exact fun hi => hi.elim
  · cases r with
    | ok a k => exact hx
    | error e k =>
      cases e with
      | tooDeep => exact fun hi => by cases hi
      | report r => exact hx
      | fault f => exact hx

/-- The main file on a machine that has loaded nothing. -/
theorem perform_ends (hP : P.Importable) (hfree : m.ImportFree) (hloaded : m.loaded = [])
    (hloading : m.loading = []) (hframe : globalFrame < m.frames.size)
    (houtside : (m.frame globalFrame).record = none) :
    P.Ends m [] (fun _ k log => P.Settled k ∧ P.Account m k [] log ∧ k.HasLoaded P.main)
      (Logged.perform P m) := by
  have hnone : ∀ q, ¬ m.HasLoaded q := fun q hq => by
    rw [Machine.HasLoaded, Machine.loaded?, hloaded] at hq
    cases hq
  have hsettled : P.Settled m :=
    ⟨hfree, fun q hq => absurd hq (hnone q), fun q r hq => absurd hq (hnone q),
      fun q hq => absurd hq (hnone q), fun {q e} hq => by
        rw [Machine.loaded?, hloaded] at hq
        cases hq⟩
  have hfresh : P.main ∉ m.loading := by
    rw [hloading]
    exact List.not_mem_nil
  have hbegun := hsettled.begin (hnone P.main)
  have htrail : P.Trail (m.loading ++ [P.main]) P.main := by
    rw [hloading]
    exact .main
  obtain ⟨t, htext, hread⟩ := program?_eq_some (hP.program_eq .refl)
  rw [file_main] at htext hread
  refine Ends.lift (congrArg Failure.lift htext)
    (Ends.quiet (change_of_ok (Machine.beginLoading_of_notMem hfresh)) ?_)
  have hbody : P.Ends m []
      (fun _ => P.Finished m P.main ⟨(Path.ofText P.name).text, globalFrame, m.exports.size⟩)
      (Logged.wholeBody (Logged.run P.host P.host.depth)
        (top ⟨(Path.ofText P.name).text, globalFrame, m.exports.size⟩ [preludeFrame, builtinsFrame])
        P.main (P.program P.main)
        { m with loading := m.loading ++ [P.main], exports := m.exports.push [] }) :=
    wholeBody_ends hP (stmts_end hP P.host.depth) (within_run _) (by rw [file_main])
      (hbegun.idle ⟨hbegun.importFree.pushExports, rfl, rfl⟩) htrail rfl hfresh (fun _ => Iff.rfl)
      ⟨hframe, by simp, houtside, fun _ h => by cases h⟩
  refine Ends.bind (fun r k log => ∃ site, r.2 = site.exports ∧ P.Finished m P.main site k log)
    (Ends.mending _ (Ends.lift hread (Ends.guarded (Ends.quiet rfl (Ends.bind _ hbody ?_))))) ?_
  · intro v k log hk
    change ∃ site, _ ∧ P.Finished m P.main site k (log ++ [])
    rw [List.append_nil]
    exact ⟨_, rfl, hk⟩
  · rintro ⟨v, _⟩ k log ⟨site, rfl, hk⟩
    have hin : P.main ∈ k.loading := hk.loading ▸ List.mem_append_right _ (.head _)
    refine Ends.quiet (change_of_ok (Machine.finishLoading_of_mem hin _)) ?_
    have herase : k.loading.erase P.main = m.loading := by
      rw [hk.loading, List.erase_append_right _ hfresh, List.erase_cons_head, List.append_nil]
    rw [herase]
    obtain ⟨hs, ha⟩ := hk.finish hfresh
    change P.Settled _ ∧ P.Account m _ [] (log ++ []) ∧ _
    rw [List.append_nil]
    exact ⟨hs, ha, (k.hasLoaded_finished P.main P.main _ _).mpr (.inl rfl)⟩

/-- The run and the log of the main file of a program in a new session. -/
theorem start_ends (hP : P.Importable) (input : Text) :
    P.Ends (start P.host input).machine []
      (fun _ k log => P.Settled k ∧ P.Account (start P.host input).machine k [] log ∧
        k.HasLoaded P.main) (Logged.perform P (start P.host input).machine) := by
  have hidle := ImportFree.start_idle P.host input
  obtain ⟨w, -, hout⟩ := Conduct.start_fits (Rollback.outside_serving P.host [])
    (Rollback.outside_blank input)
  have hframe := Rollback.Outside.frame hout globalFrame (.inr (by decide))
  exact perform_ends hP hidle.importFree hidle.loaded hidle.loading hframe.1 hframe.2

/-! ## Programs in files -/

/-- Where no statement fails but for imports, a new session that is given the main file of a program
gets past an import only when all files reached through it have been left. Unless files import each
other in a circle, it succeeds, and every file that the main file reaches runs its whole course
once; else it fails with a report of the circle, and of every file there is at most a beginning of
its course. -/
theorem files_evaluated_once (P : Project) (input : Text) (hP : P.Importable)
    (hother : ∀ e m, (Command.file P.name).perform P.host P.host.runner
      (start P.host input).machine = .error e m → e.OfImport) :
    ∃ log outcome,
      Logged.perform P (start P.host input).machine = (log, outcome) ∧
      (Command.file P.name).perform P.host P.host.runner (start P.host input).machine = outcome ∧
      (∀ e ∈ log, P.Reaches P.main e.file) ∧
      (∀ l l' p i q r, log = l ++ .passed p i :: l' → P.ImportsAt p i q → P.Reaches q r →
        .left r ∈ l) ∧
      (¬ P.Cyclic → (∃ v m, outcome = .ok v m) ∧
        ∀ p, P.Reaches P.main p → Event.about p log = P.course p) ∧
      (P.Cyclic → (∃ e m, outcome = .error e m ∧ e.OfImport ∧ P.Circular e) ∧
        ∀ p, Event.about p log <+: P.course p) := by
  have hends := start_ends hP input
  have herase := Logged.erases_perform P (start P.host input).machine
  have hnone : ∀ q, ¬ (start P.host input).machine.HasLoaded q := fun q hq => by
    rw [Machine.HasLoaded, Machine.loaded?, (ImportFree.start_idle P.host input).loaded] at hq
    cases hq
  rcases hr : Logged.perform P (start P.host input).machine with ⟨log, outcome⟩
  rw [hr] at hends herase
  refine ⟨log, outcome, rfl, herase.symm, ?_⟩
  cases outcome with
  | ok v k =>
    obtain ⟨hs, ha, hmain⟩ := hends
    have hacyclic : ¬ P.Cyclic := by
      rintro ⟨p, hp, hc⟩
      exact hs.acyclic p (hs.reaches hmain hp) hc
    refine ⟨ha.reached, fun l l' p i q r hl hi hq => ?_, fun _ => ⟨⟨v, k, rfl⟩, fun p hp => ?_⟩,
      fun hc => absurd hc hacyclic⟩
    · exact (ha.ordered l l' p i q r hl hi hq).resolve_left (hnone r)
    · have hcourse := ha.about p
      rwa [if_pos ⟨hs.reaches hmain hp, hnone p⟩, Event.about_nil, List.append_nil] at hcourse
  | error e k =>
    have hi := hother e k herase.symm
    obtain ⟨hcircular, hcut⟩ := hends hi
    have hcyclic : P.Cyclic := by
      obtain ⟨r, ps, p, q, -, -, htrail, hq, hmem⟩ := hcircular
      exact htrail.cyclic hq hmem
    refine ⟨hcut.reached, fun l l' p i q r hl hi' hq => ?_, fun hc => absurd hcyclic hc,
      fun _ => ⟨⟨e, k, rfl, hi, hcircular⟩, hcut.begun⟩⟩
    exact (hcut.ordered l l' p i q r hl hi' hq).resolve_left (hnone r)

/-! ### Two programs -/

def ascii (s : String) : List UInt8 := s.toList.map fun c => UInt8.ofNat c.toNat

/-- A program in files given by their absolute names, run in the directory `/w`. -/
def ofFiles (files : List (List Text × String)) : Project where
  host :=
    { disk := { directory := ⟨"/", ["w"]⟩, files := files.map fun (p, s) => (p, ascii s) }
      recursionLimit := 1000
      hasPrelude := false }
  name := "main.rs"

/-- The main file reaches one file in two ways, under two names. -/
def diamond : Project := ofFiles
  [(["w", "main.rs"], "imp x from \"a.rs\"\nimp y from \"./lib/../b.rs\"\nx + y"),
   (["w", "a.rs"], "imp z from \"lib//shared.rs\"\npub let x = z + 1"),
   (["w", "b.rs"], "imp z from \"./lib/shared.rs\"\npub let y = z + 2"),
   (["w", "lib", "shared.rs"], "pub let z = 40")]

/-- A circle that the main file does not lie on. -/
def circle : Project := ofFiles
  [(["w", "main.rs"], "imp x from \"a.rs\""),
   (["w", "a.rs"], "imp y from \"b.rs\"\npub let x = 1"),
   (["w", "b.rs"], "imp x from \"../w//a.rs\"\npub let y = 2")]

def paths (P : Project) : List Path := P.host.disk.files.map fun (parts, _) => ⟨"/", parts⟩

/-- The file reached in two ways is evaluated once; the circle is found. -/
theorem files_evaluated_once_diamond_circle :
    (∃ log v m, Logged.perform diamond (start diamond.host "").machine = (log, .ok v m) ∧
        ∀ p, diamond.Reaches diamond.main p → Event.about p log = diamond.course p) ∧
      ∃ log e m, Logged.perform circle (start circle.host "").machine = (log, .error e m) ∧
        circle.Circular e := by
  have hdiamond : diamond.Importable :=
    importable_of_importableWithin 16 diamond.paths (by decide +kernel)
  have hcircle : circle.Importable :=
    importable_of_importableWithin 16 circle.paths (by decide +kernel)
  have hok : endsWith (fun _ => true) ((Command.file diamond.name).perform diamond.host
      diamond.host.runner (start diamond.host "").machine) = true := by decide +kernel
  have herror : failsWith (fun r => decide (r.kind = .importFailure)) ((Command.file circle.name).perform
      circle.host circle.host.runner (start circle.host "").machine) = true := by decide +kernel
  obtain ⟨v, m, hok, -⟩ := endsWith_eq_true hok
  obtain ⟨r, k, herror, hkind⟩ := failsWith_eq_true herror
  constructor
  · obtain ⟨log, outcome, hlog, houtcome, -, -, hacyclic, hcyclic⟩ :=
      files_evaluated_once diamond "" hdiamond fun e m' he => by
        rw [hok] at he
        cases he
    rw [hok] at houtcome
    have hnot : ¬ diamond.Cyclic := fun hc => by
      obtain ⟨⟨e, m', he, -⟩, -⟩ := hcyclic hc
      rw [← houtcome] at he
      cases he
    rw [← houtcome] at hlog
    exact ⟨log, v, m, hlog, (hacyclic hnot).2⟩
  · obtain ⟨log, outcome, hlog, houtcome, -, -, hacyclic, hcyclic⟩ :=
      files_evaluated_once circle "" hcircle fun e m' he => by
        rw [herror] at he
        cases he
        exact (of_decide_eq_true hkind : r.kind = .importFailure)
    rw [herror] at houtcome
    by_cases hc : circle.Cyclic
    · obtain ⟨⟨e, m', he, -, hcircular⟩, -⟩ := hcyclic hc
      exact ⟨log, e, m', hlog.trans (congrArg _ he), hcircular⟩
    · obtain ⟨⟨v, m', he⟩, -⟩ := hacyclic hc
      rw [← houtcome] at he
      cases he

end Project

end ModuleScript
