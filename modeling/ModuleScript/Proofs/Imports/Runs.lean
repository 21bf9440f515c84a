import ModuleScript.Proofs.Imports.Account
import ModuleScript.Proofs.Reading.Orderly

/-!
# Runs through the files of a program

Between two statements at the top of a file, the files loaded form a part of the program without
circles that no import leads out of, and the files being loaded form a trail from the main file. A
statement keeps this, and its log accounts for the files loaded meanwhile. It can fail as an import
does only where an import of a file on the trail closes a circle.
-/

set_option autoImplicit false

namespace ModuleScript

open Eval

namespace ImportFree.Idle

variable {m m' : Machine}

theorem loaded? (h : Idle m m') (q : Path) : m'.loaded? q = m.loaded? q := by
  unfold Machine.loaded?
  rw [h.loaded]

theorem hasLoaded (h : Idle m m') (q : Path) : m'.HasLoaded q ↔ m.HasLoaded q := by
  unfold Machine.HasLoaded
  rw [h.loaded?]

end ImportFree.Idle

namespace Project

open Event

variable (P : Project)

/-- What is loaded is complete, without circles, and apart from what is being loaded. -/
structure Settled (m : Machine) : Prop where
  importFree : m.ImportFree
  apart : ∀ q, m.HasLoaded q → q ∉ m.loading
  closed : ∀ q r, m.HasLoaded q → P.Imports q r → m.HasLoaded r
  acyclic : ∀ q, m.HasLoaded q → ¬ Relation.TransGen P.Imports q q
  exported : ∀ {q e}, m.loaded? q = some e → ∀ n ∈ (P.program q).flatMap Stmt.exported,
    e.has n = true

/-- A report that shows a trail of files at the end of which one imports another on the trail. -/
def Circular (e : Failure) : Prop :=
  ∃ r ps p q, e = .report r ∧
    r.message = (Cause.circularImport ((ps ++ [q]).map Path.text)).message ∧
    P.Trail ps p ∧ P.Imports p q ∧ q ∈ ps

/-- A logged evaluation ends well, or it fails: as an import does on a circle only, and then the log
is cut short. -/
def Ends {α : Type} (before : Machine) (log : List Event)
    (well : α → Machine → List Event → Prop) :
    List Event × EStateM.Result Failure Machine α → Prop
  | (more, .ok a m) => well a m (log ++ more)
  | (more, .error e _) => e.OfImport → P.Circular e ∧ P.Cut before (log ++ more)

/-- The statement at a position of a file has ended well. -/
structure EndsWell (p : Path) (i : Nat) (m m' : Machine) (log : List Event) : Prop where
  settled : P.Settled m'
  loading : m'.loading = m.loading
  account : P.Account m m' [] log
  imported : ∀ q, P.ImportsAt p i q → m'.HasLoaded q

/-- A run stands before the statement at a position of a file that it has begun to load. -/
structure Standing (before : Machine) (p : Path) (site : Site) (i : Nat) (m : Machine)
    (log : List Event) : Prop where
  settled : P.Settled m
  trail : P.Trail m.loading p
  loading : m.loading = before.loading ++ [p]
  fresh : p ∉ before.loading
  account : P.Account before m (begun p i) log
  imported : ∀ j < i, ∀ q, P.ImportsAt p j q → m.HasLoaded q
  publishes : m.Publishes site.exports site.globals (((P.program p).take i).flatMap Stmt.exported)

/-- A run has left the body of a file. -/
structure Finished (before : Machine) (p : Path) (site : Site) (m : Machine)
    (log : List Event) : Prop where
  settled : P.Settled m
  loading : m.loading = before.loading ++ [p]
  account : P.Account before m (P.course p) log
  imported : ∀ q, P.Imports p q → m.HasLoaded q
  publishes : m.Publishes site.exports site.globals ((P.program p).flatMap Stmt.exported)

variable {P} {m m' before : Machine} {p q : Path} {log : List Event}

/-! ## What is loaded -/

namespace Settled

variable (h : P.Settled m)

include h

theorem reaches {r : Path} (hq : m.HasLoaded q) (hr : P.Reaches q r) : m.HasLoaded r := by
  induction hr with
  | refl => exact hq
  | tail _ hi ih => exact h.closed _ _ ih hi

theorem idle (hi : ImportFree.Idle m m') : P.Settled m' := by
  refine ⟨hi.importFree, fun q hq => ?_, fun q r hq hr => ?_, fun q hq => ?_, fun {q e} hq => ?_⟩
  · rw [hi.loading]
    exact h.apart q ((hi.hasLoaded q).mp hq)
  · exact (hi.hasLoaded r).mpr (h.closed q r ((hi.hasLoaded q).mp hq) hr)
  · exact h.acyclic q ((hi.hasLoaded q).mp hq)
  · exact h.exported ((hi.loaded? q).symm.trans hq)

theorem begin (hp : ¬ m.HasLoaded p) : P.Settled { m with loading := m.loading ++ [p] } where
  importFree := h.importFree.of_exporting rfl rfl (h.importFree.exporting.of_eq rfl rfl)
  apart q hq hmem := by
    rcases List.mem_append.mp hmem with hmem | hmem
    · exact h.apart q hq hmem
    · exact hp (List.mem_singleton.mp hmem ▸ hq)
  closed := h.closed
  acyclic := h.acyclic
  exported := h.exported

/-- A file all imports of which are loaded does not lie on a circle, unless it is loaded itself. -/
theorem not_cyclic (hp : ¬ m.HasLoaded p) (hi : ∀ q, P.Imports p q → m.HasLoaded q) :
    ¬ Relation.TransGen P.Imports p p := by
  intro hc
  obtain ⟨q, hq, hr⟩ := Relation.TransGen.head'_iff.mp hc
  exact hp (h.reaches (hi q hq) hr)

/-- The machine on which a file has just been loaded. -/
theorem finish {ps : List Path} {e : Exports} (hps : ∀ q ∈ ps, q ∈ m.loading) (hp : p ∉ ps)
    (hfresh : ¬ m.HasLoaded p) (hi : ∀ q, P.Imports p q → m.HasLoaded q)
    (hfree : ∀ n v, (n, v) ∈ e → v.Carries ImportFree.Function)
    (he : ∀ n ∈ (P.program p).flatMap Stmt.exported, e.has n = true) :
    P.Settled (m.finished p e ps) := by
  have hh : ∀ q, (m.finished p e ps).HasLoaded q ↔ q = p ∨ m.HasLoaded q := fun q =>
    m.hasLoaded_finished p q e ps
  refine ⟨?_, fun q hq => ?_, fun q r hq hr => ?_, fun q hq => ?_, fun {q d} hq => ?_⟩
  · have hexporting := h.importFree.exporting.setLoaded p hfree
    exact h.importFree.of_exporting rfl rfl (hexporting.of_eq rfl rfl)
  · rcases (hh q).mp hq with rfl | hq
    · exact hp
    · exact fun hmem => h.apart q hq (hps q hmem)
  · rcases (hh q).mp hq with rfl | hq
    · exact (hh r).mpr (.inr (hi r hr))
    · exact (hh r).mpr (.inr (h.closed q r hq hr))
  · rcases (hh q).mp hq with rfl | hq
    · exact h.not_cyclic hfresh hi
    · exact h.acyclic q hq
  · rw [Machine.loaded?_finished] at hq
    split at hq
    · rename_i hpq
      cases hq
      exact hpq ▸ he
    · exact h.exported hq

end Settled

/-! ## How evaluation ends -/

section Ends

variable {α β : Type} {x : Logged α} {y : Eval α} {f : α → Logged β} {a : α} {e : Failure}
  {well : α → Machine → List Event → Prop} {well' : β → Machine → List Event → Prop}

theorem Ends.after {more : List Event} {o : List Event × EStateM.Result Failure Machine α}
    (h : P.Ends before (log ++ more) well o) : P.Ends before log well (more ++ o.1, o.2) := by
  rcases o with ⟨rest, r⟩
  cases r <;> simpa only [Ends, List.append_assoc] using h

theorem Ends.bind (well : α → Machine → List Event → Prop) (hx : P.Ends before log well (x m))
    (hf : ∀ a k log, well a k log → P.Ends before log well' (f a k)) :
    P.Ends before log well' ((x >>= f) m) := by
  rcases hr : x m with ⟨more, r⟩
  rw [hr] at hx
  cases r with
  | error e k =>
    rw [Logged.bind_error hr]
    exact hx
  | ok a k =>
    rw [Logged.bind_ok hr]
    exact Ends.after (hf a k _ hx)

theorem Ends.quiet (hy : y m = .ok a m') (hf : P.Ends before log well' (f a m')) :
    P.Ends before log well' ((Logged.quiet y >>= f) m) := by
  rwa [Logged.quiet_bind hy]

theorem Ends.fail (hy : y m = .error e m') (he : e.OfImport → P.Circular e ∧ P.Cut before log) :
    P.Ends before log well' ((Logged.quiet y >>= f) m) := by
  rw [Logged.quiet_bind_error hy]
  change e.OfImport → P.Circular e ∧ P.Cut before (log ++ [])
  rwa [List.append_nil]

theorem Ends.lift {r : Except Failure α} (hr : r = .ok a) (hf : P.Ends before log well' (f a m)) :
    P.Ends before log well' ((Logged.quiet (Eval.lift r) >>= f) m) := by
  rw [hr]
  exact hf

theorem Ends.note {f : Unit → Logged β} {e : Event}
    (hf : P.Ends before (log ++ [e]) well' (f ⟨⟩ m)) :
    P.Ends before log well' ((Logged.note e >>= f) m) :=
  Ends.after hf

theorem Ends.ask {f : Unit → Logged β} {h : Host} {self : Task → Logged Value} {d : Demand}
    {left : Nat} (hself : self (.ask d) = Logged.run h left (.ask d))
    (hf : P.Ends before log well' (f ⟨⟩ m)) :
    P.Ends before log well' ((Logged.ask self d >>= f) m) := by
  unfold Logged.ask
  rw [hself]
  change P.Ends before log well' ((Logged.ask (Logged.run h left) d >>= f) m)
  rw [Logged.ask_run]
  rcases steady_ask_run h left d with hok | ⟨e, hreport, he⟩
  · exact Ends.quiet (hok m) hf
  · refine Ends.fail (he m) fun hi => ?_
    cases e with
    | report r => exact absurd rfl (hreport r)
    | fault | tooDeep => exact hi.elim

theorem Ends.mending (mend : Machine → Machine) (hx : P.Ends before log well (x m)) :
    P.Ends before log well (Logged.under (Eval.mending · mend) x m) := by
  unfold Logged.under Eval.mending
  rcases hr : x m with ⟨more, r⟩
  rw [hr] at hx
  cases r with
  | ok a k => exact hx
  | error e k => exact hx

theorem Circular.located {h : Host} {l : Location} {e : Failure}
    (he : Eval.located h l y m = .error e m') {e' : Failure} (he' : y m = .error e' m')
    (hc : P.Circular e') : P.Circular e := by
  obtain ⟨e₂, he₂, -, hmessage⟩ := ofImport_located he
  rw [he'] at he₂
  cases he₂
  obtain ⟨r', ps, p, q, rfl, hr', htrail⟩ := hc
  obtain ⟨r, rfl, hr⟩ := hmessage r' rfl
  exact ⟨r, ps, p, q, rfl, hr.trans hr', htrail⟩

theorem Ends.located {h : Host} {l : Location} (hx : P.Ends before log well (x m)) :
    P.Ends before log well (Logged.under (Eval.located h l) x m) := by
  unfold Logged.under
  rcases hr : x m with ⟨more, r⟩
  rw [hr] at hx
  dsimp only
  cases hl : Eval.located h l (fun _ => r) m with
  | ok a k =>
    cases located_eq_ok hl
    exact hx
  | error e k =>
    obtain ⟨e', he', hiff, -⟩ := ofImport_located hl
    cases he'
    exact fun hi => ⟨Circular.located hl rfl (hx (hiff.mp hi)).1, (hx (hiff.mp hi)).2⟩

end Ends

/-! ## Bodies -/

theorem EndsWell.idle {i : Nat} {k : Machine} (h : P.EndsWell p i m m' log)
    (hi : ImportFree.Idle m' k) : P.EndsWell p i m k log := by
  refine ⟨h.settled.idle hi, hi.loading.trans h.loading, ?_, fun q hq => ?_⟩
  · have haccount := h.account.append (fun _ _ => rfl) (account_of_loaded hi.hasLoaded)
    rwa [List.append_nil] at haccount
  · exact (hi.hasLoaded q).mpr (h.imported q hq)

namespace Standing

variable {site : Site} {i : Nat} {s : Stmt} (h : P.Standing before p site i m log)

include h

theorem apart (hm : P.Settled m') (hl : m'.loading = m.loading) (hq : m'.HasLoaded q) :
    Event.about q (begun p i) = [] := by
  rw [about_of_file (fun _ => file_of_mem_begun)]
  refine if_neg fun he => hm.apart q hq ?_
  rw [hl, he]
  exact h.trail.mem

/-- The statement at hand has ended well. -/
theorem step {more : List Event} (hs : (P.program p)[i]? = some s)
    (hend : P.EndsWell p i m m' more)
    (hpub : m'.Publishes site.exports site.globals
      (s.exported ++ ((P.program p).take i).flatMap Stmt.exported)) :
    P.Standing before p site (i + 1) m' (log ++ more ++ [.passed p i]) where
  settled := hend.settled
  trail := hend.loading ▸ h.trail
  loading := hend.loading.trans h.loading
  fresh := h.fresh
  account := by
    rw [begun_succ]
    refine (h.account.append (fun q => h.apart hend.settled hend.loading) hend.account).note
      h.trail.reaches ?_
    rintro _ _ q r ⟨⟩ hi hr
    exact hend.settled.reaches (hend.imported q hi) hr
  imported j hj q hq := by
    rcases Nat.lt_succ_iff_lt_or_eq.mp hj with hj | rfl
    · exact hend.account.grows q (h.imported j hj q hq)
    · exact hend.imported q hq
  publishes := by
    refine hpub.mono fun n hn => ?_
    rw [List.take_add_one, hs, List.flatMap_append] at hn
    rcases List.mem_append.mp hn with hn | hn
    · exact List.mem_append_right _ hn
    · exact List.mem_append_left _ (by simpa using hn)

theorem cut {more : List Event} (hs : (P.program p)[i]? = some s) (hmore : P.Cut m more) :
    P.Cut before (log ++ more) := by
  obtain ⟨hi, -⟩ := List.getElem?_eq_some_iff.mp hs
  refine h.account.cut rfl (Nat.le_of_lt hi) h.trail.mem h.fresh (fun q hq => ?_) h.settled.apart
    hmore
  rw [h.loading]
  exact List.mem_append_left _ hq

theorem ends {o : List Event × EStateM.Result Failure Machine Value}
    (hs : (P.program p)[i]? = some s) (ho : P.Ends m [] (fun _ => P.EndsWell p i m) o)
    (hpub : ∀ v k, o.2 = .ok v k → k.Publishes site.exports site.globals
      (s.exported ++ ((P.program p).take i).flatMap Stmt.exported)) :
    P.Ends before log (fun _ k log' => P.Standing before p site (i + 1) k (log' ++ [.passed p i]))
      o := by
  rcases o with ⟨more, r⟩
  cases r with
  | ok v k => exact h.step hs ho (hpub v k rfl)
  | error e k => exact fun hi => ⟨(ho hi).1, h.cut hs (ho hi).2⟩

end Standing

/-- A file whose body has been left is loaded with what it exports. -/
theorem Finished.finish {site : Site} (h : P.Finished before p site m log)
    (hfresh : p ∉ before.loading) :
    P.Settled (m.finished p (m.exportsOf site.exports) before.loading) ∧
      P.Account before (m.finished p (m.exportsOf site.exports) before.loading) [] log := by
  have hin : p ∈ m.loading := h.loading ▸ List.mem_append_right _ (.head _)
  have hnot : ¬ m.HasLoaded p := fun hl => h.settled.apart p hl hin
  refine ⟨h.settled.finish (fun q hq => ?_) hfresh hnot h.imported
    (fun _ _ => h.settled.importFree.exporting.exports) h.publishes.has, ?_⟩
  · rw [h.loading]
    exact List.mem_append_left _ hq
  · exact h.account.close rfl (fun q => m.hasLoaded_finished p q _ _) hnot

variable (P) in
/-- With so many levels or fewer, statements at the tops of files end well or fail as imports do on
circles only. -/
def StmtsEnd (depth : Nat) : Prop :=
  ∀ left ≤ depth, ∀ {p : Path} {i : Nat} {s : Stmt} {m : Machine} (site : Site)
    (outer : List FrameId), site.source = (P.file p).text → P.Settled m → P.Trail m.loading p →
    (P.program p)[i]? = some s →
    P.Ends m [] (fun _ => P.EndsWell p i m)
      (Logged.run P.host left (.eval (top site outer) s) m)

variable (P) in
/-- Performs every task with so many levels or fewer. -/
def Within (depth : Nat) (self : Task → Logged Value) : Prop :=
  ∀ t, ∃ left ≤ depth, self t = Logged.run P.host left t

theorem within_run (depth : Nat) : P.Within depth (Logged.run P.host depth) :=
  fun _ => ⟨depth, Nat.le_refl depth, rfl⟩

theorem within_below (depth : Nat) (w : Work) :
    P.Within depth (Logged.below (Logged.run P.host depth) P.host w) :=
  fun t => ⟨_, Nat.sub_le _ _, Logged.below_run P.host depth w t⟩

theorem Importable.program_eq (hP : P.Importable) (hp : P.Reaches P.main p) :
    P.program? p = some (P.program p) := by
  obtain ⟨program, hprogram⟩ := hP.program hp
  unfold Project.program
  rw [hprogram]
  rfl

theorem orderly_of_mem {s : Stmt} (hp : P.program? p = some (P.program p))
    (hs : s ∈ P.program p) : Orderly s := by
  obtain ⟨t, -, hr⟩ := program?_eq_some hp
  exact orderly_of_read hr s hs

section Bodies

variable {depth : Nat} {self : Task → Logged Value} {site : Site} {outer : List FrameId}
  (hP : P.Importable) (hdepth : P.StmtsEnd depth) (hself : P.Within depth self)

include hP hdepth hself

theorem body_ends (hsite : site.source = (P.file p).text) {ss : List Stmt} {i : Nat} {v : Value}
    (h : P.Standing before p site i m log) (hi : i ≤ (P.program p).length)
    (hss : (P.program p).drop i = ss) :
    P.Ends before log (fun _ => P.Standing before p site (P.program p).length)
      (Logged.body self (top site outer) p i v ss m) := by
  induction ss generalizing i m v log with
  | nil =>
    have hlen : (P.program p).length = i := Nat.le_antisymm (List.drop_eq_nil_iff.mp hss) hi
    change P.Standing before p site (P.program p).length m (log ++ [])
    rw [List.append_nil, hlen]
    exact h
  | cons s ss ih =>
    have hs : (P.program p)[i]? = some s := by
      rw [← List.head?_drop, hss]
      rfl
    obtain ⟨hlt, -⟩ := List.getElem?_eq_some_iff.mp hs
    obtain ⟨left, hleft, hrun⟩ := hself (.eval (top site outer) s)
    have hstmt := hdepth left hleft site outer hsite h.settled h.trail hs
    rw [← hrun] at hstmt
    refine Ends.bind _ (h.ends hs hstmt fun v k hk => ?_) fun u k log' hk => Ends.note ?_
    · rw [hrun] at hk
      have hok : Eval.run P.host left (.eval (top site outer) s) m = .ok v k :=
        (Logged.erases_run P.host left _ m).symm.trans hk
      have hprogram := hP.program_eq h.trail.reaches
      exact Exporting.stmt h.publishes (orderly_of_mem hprogram (List.mem_of_getElem? hs)) hok
    · refine ih hk hlt ?_
      rw [← List.tail_drop, hss]
      rfl

theorem wholeBody_ends (hsite : site.source = (P.file p).text) (hm : P.Settled m)
    (ht : P.Trail m.loading p) (hl : m.loading = before.loading ++ [p])
    (hfresh : p ∉ before.loading) (hloaded : ∀ q, m.HasLoaded q ↔ before.HasLoaded q)
    (hpub : m.Publishes site.exports site.globals []) :
    P.Ends before [] (fun _ => P.Finished before p site)
      (Logged.wholeBody self (top site outer) p (P.program p) m) := by
  have hstart : P.Standing before p site 0 m ([] ++ [.entered p]) :=
    ⟨hm, ht, hl, hfresh, (account_of_loaded hloaded).note ht.reaches (fun _ _ _ _ h => by cases h),
      (fun _ h => by cases h), hpub⟩
  refine Ends.note (Ends.bind _ (body_ends hP hdepth hself hsite hstart (Nat.zero_le _) rfl) ?_)
  intro v k log h
  refine Ends.note ?_
  change P.Finished before p site k (log ++ [.left p] ++ [])
  rw [List.append_nil]
  refine ⟨h.settled, h.loading, h.account.note h.trail.reaches (fun _ _ _ _ h => by cases h),
    ?_, ?_⟩
  · rintro q ⟨j, hj⟩
    obtain ⟨program, _, _, _, hprogram, hs, -⟩ := id hj
    rw [hP.program_eq h.trail.reaches] at hprogram
    cases hprogram
    obtain ⟨hlt, -⟩ := List.getElem?_eq_some_iff.mp hs
    exact h.imported j hlt q hj
  · exact h.publishes.mono fun n hn => by rwa [List.take_length]

end Bodies

/-! ## Imports -/

section Imports

variable {depth : Nat} {w : Work} {names : List Ident} {path : Text} {i : Nat} {l : Location}
  (hP : P.Importable) (hdepth : P.StmtsEnd depth) (hm : P.Settled m) (ht : P.Trail m.loading p)
  (hs : (P.program p)[i]? = some (.imports l names path)) (hq : P.Resolves p names path q)

include hP hdepth hm ht hs hq

theorem evaluateFile_ends (hloaded : ¬ m.HasLoaded q) (hfresh : q ∉ m.loading) :
    P.Ends m []
      (fun e k log => ∃ site, P.Finished m q site k log ∧ e = k.exportsOf site.exports)
      (Logged.evaluateFile P.host (Logged.below (Logged.run P.host depth) P.host w) q
        { m with loading := m.loading ++ [q] }) := by
  have hmain : q ≠ P.main := fun he => hfresh (he ▸ ht.main_mem)
  have hi : P.Imports p q := ⟨i, importsAt_of_resolves (hP.program_eq ht.reaches) hs hq⟩
  have htrail := ht.step hi hfresh
  obtain ⟨t, htext, hread⟩ := program?_eq_some (hP.program_eq htrail.reaches)
  have hfile := file_of_ne hmain
  rw [hfile] at htext hread
  have hbegun := hm.begin hloaded
  have hopened : ImportFree.Idle { m with loading := m.loading ++ [q] }
      { ({ m with loading := m.loading ++ [q] } : Machine).pushFrame
          { name := "global " ++ q.name } with exports := m.exports.push [] } :=
    ⟨(hbegun.importFree.pushFrame fun h => by cases h).pushExports, rfl, rfl⟩
  refine Ends.lift (congrArg Failure.lift htext) ?_
  refine Ends.ask (Logged.below_run P.host depth w _) (Ends.lift hread (Ends.quiet rfl ?_))
  refine Ends.bind _ (wholeBody_ends hP hdepth (within_below depth w) ?_ (hbegun.idle hopened) htrail rfl hfresh
    (fun _ => Iff.rfl) ?_) fun v k log h => ?_
  · rw [hfile]
  · refine ⟨?_, ?_, ?_, fun _ h => by cases h⟩
    · simp [Machine.pushFrame]
    · simp
    · change ((m.pushFrame _).frame m.frames.size).record = none
      rw [Machine.frame_pushFrame_size]
  · refine Ends.quiet rfl ?_
    change ∃ site, P.Finished m q site k (log ++ []) ∧ _
    rw [List.append_nil]
    exact ⟨_, h, rfl⟩

theorem load_ends :
    P.Ends m [] (fun e k log => P.EndsWell p i m k log ∧ k.loaded? q = some e)
      (Logged.load P.host (Logged.below (Logged.run P.host depth) P.host w) path (P.file p).text m) := by
  have hi : P.ImportsAt p i q := importsAt_of_resolves (hP.program_eq ht.reaches) hs hq
  have himported : ∀ {k : Machine}, k.HasLoaded q → ∀ r, P.ImportsAt p i r → k.HasLoaded r :=
    fun hk r hr => hi.unique hr ▸ hk
  refine Ends.lift (congrArg Failure.lift hq.target) (Ends.quiet rfl ?_)
  cases hl : m.loaded? q with
  | some e =>
    have hk : m.HasLoaded q := by rw [Machine.HasLoaded, hl, Option.isSome_some]
    exact ⟨⟨hm, rfl, account_nil m, himported hk⟩, hl⟩
  | none =>
    have hloaded : ¬ m.HasLoaded q := by
      rw [Machine.HasLoaded, hl]
      exact Bool.false_ne_true
    refine Ends.lift (congrArg Failure.lift hq.isFile) ?_
    rw [if_neg (by decide)]
    by_cases hmem : q ∈ m.loading
    · refine Ends.fail (change_of_error (Machine.beginLoading_of_mem hmem)) fun _ => ?_
      exact ⟨⟨_, m.loading, p, q, rfl, rfl, ht, ⟨i, hi⟩, hmem⟩, cut_nil m⟩
    · refine Ends.quiet (change_of_ok (Machine.beginLoading_of_notMem hmem)) ?_
      refine Ends.bind _ (Ends.mending _ (evaluateFile_ends hP hdepth hm ht hs hq hloaded hmem)) ?_
      rintro _ k log ⟨site, hk, rfl⟩
      have hin : q ∈ k.loading := hk.loading ▸ List.mem_append_right _ (.head _)
      refine Ends.quiet (change_of_ok (Machine.finishLoading_of_mem hin _)) ?_
      have herase : k.loading.erase q = m.loading := by
        rw [hk.loading, List.erase_append_right _ hmem, List.erase_cons_head, List.append_nil]
      rw [herase]
      obtain ⟨hsettled, haccount⟩ := hk.finish hmem
      have hnow := (k.loaded?_finished q q (k.exportsOf site.exports) m.loading).trans (if_pos rfl)
      have hend : P.EndsWell p i m (k.finished q (k.exportsOf site.exports) m.loading) log :=
        ⟨hsettled, rfl, haccount, himported ((k.hasLoaded_finished q q _ _).mpr (.inl rfl))⟩
      change P.EndsWell p i m _ (log ++ []) ∧ _
      rw [List.append_nil]
      exact ⟨hend, hnow⟩

theorem imports_ends (c : Context) (hc : c.site.source = (P.file p).text) :
    P.Ends m [] (fun _ => P.EndsWell p i m)
      (Logged.imports P.host (Logged.below (Logged.run P.host depth) P.host w) c names path m) := by
  unfold Logged.imports
  rw [hc]
  refine Ends.bind _ (load_ends hP hdepth hm ht hs hq) ?_
  rintro e k log ⟨hk, he⟩
  obtain ⟨program, hprogram, hnames⟩ := hq.exported
  have hprogram' : P.program q = program := by
    unfold Project.program
    rw [hprogram]
    rfl
  obtain ⟨k', hb, hidle⟩ := ImportFree.bindImports_idle c path
    (hk.settled.importFree.exporting.loaded? he) hk.settled.importFree fun n hn =>
      hk.settled.exported he n (hprogram' ▸ hnames n hn)
  refine Ends.quiet hb ?_
  change P.EndsWell p i m k' (log ++ [])
  rw [List.append_nil]
  exact hk.idle hidle

end Imports

/-! ## Statements -/

theorem run_of_not_import {h : Host} {c : Context} {s : Stmt} (hs : s.isImport = false)
    (depth : Nat) : Logged.run h depth (.eval c s) = Logged.quiet (Eval.run h depth (.eval c s)) := by
  cases depth with
  | zero => rfl
  | succ depth =>
    cases s with
    | imports l names path => cases hs
    | _ => rfl

/-- Statements at the tops of files end well or fail as imports do on circles only. -/
theorem stmts_end (hP : P.Importable) (depth : Nat) : P.StmtsEnd depth := by
  induction depth with
  | zero =>
    intro left hleft p i s m site outer hsite hm ht hs
    obtain rfl := Nat.le_zero.mp hleft
    exact fun hi => hi.elim
  | succ depth ih =>
    intro left hleft p i s m site outer hsite hm ht hs
    rcases Nat.le_succ_iff.mp hleft with hless | rfl
    · exact ih left hless site outer hsite hm ht hs
    have hprogram := hP.program_eq ht.reaches
    rcases hP.stmt ht.reaches hprogram (List.mem_of_getElem? hs) with
      hfree | ⟨l, names, path, q, rfl, hq⟩
    · rw [run_of_not_import hfree.not_import]
      have hidle := ImportFree.stmt_idle (h := P.host) (c := top site outer) hm.importFree hfree
        (depth + 1)
      unfold Logged.quiet
      cases hr : Eval.run P.host (depth + 1) (.eval (top site outer) s) m with
      | error e k => exact fun hi => absurd hi (ImportFree.stmt_harmless hm.importFree hfree hr)
      | ok v k =>
        rw [hr] at hidle
        refine ⟨hm.idle hidle, hidle.loading, account_of_loaded hidle.hasLoaded, fun q hq => ?_⟩
        obtain ⟨program, l, names, path, hprogram', hs', -⟩ := hq
        rw [hprogram] at hprogram'
        cases hprogram'
        rw [hs] at hs'
        cases hs'
        cases hfree.not_import
    · exact Ends.located (imports_ends hP ih hm ht hs hq (top site outer) hsite)

end Project

end ModuleScript
