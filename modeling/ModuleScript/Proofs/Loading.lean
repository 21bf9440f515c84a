import ModuleScript.Proofs.Levels
import ModuleScript.Proofs.Store

/-!
# How a file is loaded

An import fails at once, finds a file that has been loaded, or has one evaluated. The evaluation of a
file fails before it has begun or at the first statement that fails.
-/

set_option autoImplicit false

namespace ModuleScript

open Eval

/-! ## Loading a file -/

/-- The machine on which a file is evaluated that is being loaded. -/
abbrev Machine.begun (m : Machine) (p : Path) : Machine := { m with loading := m.loading ++ [p] }

namespace Eval

variable {h : Host} {relative importer : Text} {m k : Machine} {p : Path}

/-- Evaluates a file that has not been loaded, which counts as being loaded meanwhile. -/
abbrev loadFresh (h : Host) (self : Step) (p : Path) : Eval Exports := do
  change (·.beginLoading p)
  let exports ← mending (evaluateFile h self p) (·.abortLoading p)
  change (·.finishLoading p exports)
  return exports

/-- What is done once a file being loaded has been evaluated. -/
def loadEnd (p : Path) (r : EStateM.Result Failure Machine Exports) :
    EStateM.Result Failure Machine Exports :=
  match r with
  | .ok e k => (change (·.finishLoading p e) >>= fun _ => pure e) k
  | .error f k => .error f (k.abortLoading p)

theorem loadFresh_eq (self : Step) (p : Path) (m : Machine) :
    loadFresh h self p m =
      match m.beginLoading p with
      | .error f => .error f m
      | .ok k => loadEnd p (evaluateFile h self p k) := by
  cases hb : m.beginLoading p with
  | error f => exact bind_of_error (change_of_error hb)
  | ok k =>
    unfold loadFresh
    rw [bind_of_ok (change_of_ok hb)]
    dsimp only
    cases he : evaluateFile h self p k with
    | ok e k' =>
      rw [bind_of_ok (mending_of_ok _ he)]
      rfl
    | error f k' =>
      rw [bind_of_error (mending_of_error _ he)]
      rfl

theorem load_resolved (self : Step) (hp : h.disk.resolveImport relative importer = .ok p) :
    load h self relative importer m =
      match m.loaded? p with
      | some e => .ok e m
      | none =>
        match h.disk.isFile p with
        | .error f => .error (.fault f) m
        | .ok false => .error (.report (Cause.cannotFind relative p.text).report) m
        | .ok true =>
          match m.beginLoading p with
          | .error f => .error f m
          | .ok k => loadEnd p (evaluateFile h self p k) := by
  have hload : load h self relative importer m = (match m.loaded? p with
      | some exports => pure exports
      | none => do
        if !(← lift (Failure.lift (h.disk.isFile p))) then
          because (.cannotFind relative p.text)
        loadFresh h self p : Eval Exports) m := by
    unfold load
    rw [hp]
    rfl
  rw [hload]
  cases m.loaded? p with
  | some e => rfl
  | none =>
    dsimp only
    cases h.disk.isFile p with
    | error f => rfl
    | ok isFile =>
      cases isFile with
      | false => rfl
      | true => exact loadFresh_eq self p m

/-- An import fails at once, or leads to a file that has been loaded, or has a file evaluated that
neither has been loaded nor is being loaded. -/
theorem load_cases (h : Host) (relative importer : Text) (m : Machine) :
    (∃ f, ∀ self, load h self relative importer m = .error f m) ∨
      (∃ p e, m.loaded? p = some e ∧ ∀ self, load h self relative importer m = .ok e m) ∨
      ∃ p, h.disk.resolveImport relative importer = .ok p ∧ m.loaded? p = none ∧ p ∉ m.loading ∧
        ∀ self, load h self relative importer m = loadEnd p (evaluateFile h self p (m.begun p)) := by
  cases hp : h.disk.resolveImport relative importer with
  | error f =>
    refine .inl ⟨.fault f, fun self => ?_⟩
    unfold load
    rw [hp]
    rfl
  | ok p =>
    cases hn : m.loaded? p with
    | some e =>
      refine .inr (.inl ⟨p, e, hn, fun self => ?_⟩)
      rw [load_resolved self hp, hn]
    | none =>
      cases hf : h.disk.isFile p with
      | error f =>
        refine .inl ⟨.fault f, fun self => ?_⟩
        rw [load_resolved self hp, hn, hf]
      | ok isFile =>
        cases isFile with
        | false =>
          refine .inl ⟨.report (Cause.cannotFind relative p.text).report, fun self => ?_⟩
          rw [load_resolved self hp, hn, hf]
        | true =>
          by_cases hmem : p ∈ m.loading
          · refine .inl ⟨.report (Cause.circularImport ((m.loading ++ [p]).map Path.text)).report,
              fun self => ?_⟩
            rw [load_resolved self hp, hn, hf, Machine.beginLoading_of_mem hmem]
          · refine .inr (.inr ⟨p, rfl, hn, hmem, fun self => ?_⟩)
            rw [load_resolved self hp, hn, hf, Machine.beginLoading_of_notMem hmem]

/-- Names are bound one after the other, each to what is exported under it. -/
theorem bindImports_cons_eq_ok {c : Context} {path : Text} {e : Exports} {x : Ident}
    {rest : List Ident} {u : Unit} (hb : bindImports c path e (x :: rest) m = .ok u k) :
    ∃ v m', e.get? x = some v ∧ define c x v false m = .ok ⟨⟩ m' ∧
      bindImports c path e rest m' = .ok u k := by
  unfold bindImports at hb
  cases hx : e.get? x with
  | none =>
    rw [hx] at hb
    cases hb
  | some v =>
    rw [hx] at hb
    obtain ⟨_, m', hd, hrest⟩ := bind_eq_ok hb
    exact ⟨v, m', rfl, hd, hrest⟩

end Eval

/-! ## Evaluating a file -/

namespace Machine

/-- The machine on which the statements of a file are evaluated. -/
def opened (m : Machine) (p : Path) : Machine :=
  { m.pushFrame { name := "global " ++ p.name } with exports := m.exports.push [] }

/-- The site and the context of these statements. -/
abbrev siteFor (m : Machine) (p : Path) : Site := ⟨p.text, m.frames.size, m.exports.size⟩

abbrev topFor (m : Machine) (p : Path) : Context := top (m.siteFor p) [preludeFrame, builtinsFrame]

end Machine

namespace Eval

variable {h : Host} {self : Step} {c : Context} {m k : Machine} {p : Path} {f : Failure}

/-- Statements fail where one of them does after all before it have come to their ends. -/
theorem foldlM_eq_error {ss : List Stmt} {u : Value}
    (he : ss.foldlM (fun _ s => self (.eval c s)) u m = .error f k) :
    ∃ passed s rest v m', ss = passed ++ s :: rest ∧
      passed.foldlM (fun _ s => self (.eval c s)) u m = .ok v m' ∧
      self (.eval c s) m' = .error f k := by
  induction ss generalizing u m with
  | nil => cases he
  | cons s ss ih =>
    rw [List.foldlM_cons] at he
    cases hs : self (.eval c s) m with
    | error e m' =>
      rw [bind_of_error hs] at he
      cases he
      exact ⟨[], s, ss, u, m, rfl, rfl, hs⟩
    | ok v m' =>
      rw [bind_of_ok hs] at he
      obtain ⟨passed, s', rest, v', k', rfl, hpassed, herror⟩ := ih he
      refine ⟨s :: passed, s', rest, v', k', rfl, ?_, herror⟩
      rw [List.foldlM_cons, bind_of_ok hs]
      exact hpassed

theorem evaluateFile_of_read {t : Text} {program : Program} (ht : h.disk.readText p = .ok t)
    (ha : self.ask (.read t) m = .ok ⟨⟩ m) (hr : h.read p.text t = .ok program) :
    evaluateFile h self p m = (do
      let _ ← self.stmts (m.topFor p) program
      return (← get).exportsOf m.exports.size : Eval Exports) (m.opened p) := by
  unfold evaluateFile
  rw [ht]
  have hlift : lift (Failure.lift (.ok t)) m = .ok t m := rfl
  rw [bind_of_ok hlift, bind_of_ok ha, hr]
  rfl

/-- The evaluation of a file succeeds when all its statements have come to their ends. -/
theorem evaluateFile_eq_ok {e : Exports} (hself : ∀ d, Steady (self.ask d))
    (he : evaluateFile h self p m = .ok e k) :
    ∃ t program v, h.disk.readText p = .ok t ∧ h.read p.text t = .ok program ∧
      self.stmts (m.topFor p) program (m.opened p) = .ok v k ∧ e = k.exportsOf m.exports.size := by
  obtain ⟨t, m₁, hlift, he₁⟩ := bind_eq_ok he
  obtain ⟨rfl, ht⟩ := lift_eq_ok hlift
  obtain ⟨_, m₂, hask, he₂⟩ := bind_eq_ok he₁
  cases (hself _).eq_of_ok hask
  obtain ⟨program, m₃, hlift', he₃⟩ := bind_eq_ok he₂
  obtain ⟨rfl, hr⟩ := lift_eq_ok hlift'
  obtain ⟨site, m₄, hopen, he₄⟩ := bind_eq_ok he₃
  cases hopen
  obtain ⟨v, k', hs, hend⟩ := bind_eq_ok he₄
  cases hend
  exact ⟨t, program, v, ok_of_lift ht, hr, hs, rfl⟩

/-- The evaluation of a file fails before it has begun, or at one of its statements. -/
theorem evaluateFile_eq_error (hself : ∀ d, Steady (self.ask d))
    (he : evaluateFile h self p m = .error f k) :
    k = m ∨ ∃ t passed s rest v m', h.disk.readText p = .ok t ∧
      h.read p.text t = .ok (passed ++ s :: rest) ∧
      self.stmts (m.topFor p) passed (m.opened p) = .ok v m' ∧
      self (.eval (m.topFor p) s) m' = .error f k := by
  cases ht : h.disk.readText p with
  | error e =>
    unfold evaluateFile at he
    rw [ht] at he
    cases he
    exact .inl rfl
  | ok t =>
    have hlift : lift (Failure.lift (.ok t)) m = .ok t m := rfl
    rcases hself (.read t) with hask | ⟨e, -, hask⟩
    · cases hr : h.read p.text t with
      | error e =>
        unfold evaluateFile at he
        rw [ht, bind_of_ok hlift, bind_of_ok (hask m), hr] at he
        cases he
        exact .inl rfl
      | ok program =>
        rw [evaluateFile_of_read ht (hask m) hr] at he
        cases hs : self.stmts (m.topFor p) program (m.opened p) with
        | ok v m' =>
          rw [bind_of_ok hs] at he
          cases he
        | error e m' =>
          rw [bind_of_error hs] at he
          cases he
          obtain ⟨passed, s, rest, v, m', rfl, hpassed, herror⟩ := foldlM_eq_error hs
          exact .inr ⟨t, passed, s, rest, v, m', rfl, hr, hpassed, herror⟩
    · unfold evaluateFile at he
      rw [ht, bind_of_ok hlift, bind_of_error (hask m)] at he
      cases he
      exact .inl rfl

end Eval

end ModuleScript
