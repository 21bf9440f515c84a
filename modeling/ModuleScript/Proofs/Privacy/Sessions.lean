import ModuleScript.Proofs.Privacy.Runs
import ModuleScript.Proofs.Reading.Orderly
import ModuleScript.Proofs.Simulation.Sessions

/-!
# Sessions under a discipline

A session starts on a sound machine, and every source and file that it is given leaves it on one, if
all the programs that it may come to run keep the discipline.
-/

set_option autoImplicit false

namespace ModuleScript

open Eval

namespace Session

/-- A program that a session given these commands may come to run, with its source. -/
inductive Knows (h : Host) (commands : List Command) : Text → Program → Prop where
  | prelude {program : Program} : h.hasPrelude = true →
      h.read "<prelude>" preludeSource = .ok program → Knows h commands "<prelude>" program
  | source {name text : Text} {program : Program} : Command.source name text ∈ commands →
      h.read name text = .ok program → Knows h commands name program
  | file {path : Path} {text : Text} {program : Program} : h.disk.readText path = .ok text →
      h.read path.text text = .ok program → Knows h commands path.text program

theorem Knows.orderly {h : Host} {commands : List Command} {source : Text} {program : Program}
    (hk : Knows h commands source program) : ∀ s ∈ program, Orderly s := by
  cases hk with
  | prelude _ hr => exact orderly_of_read hr
  | source _ hr => exact orderly_of_read hr
  | file _ hr => exact orderly_of_read hr

end Session

namespace Discipline

open Session

variable {D : Discipline} {h : Host} {hfiles : D.Covers h} {self self' : Step} {m : Machine}

/-- All that a session given the commands may come to run keeps the discipline. -/
def Governs (D : Discipline) (h : Host) (commands : List Command) : Prop :=
  ∀ source program, Knows h commands source program → D.DeclareAll source none program program

theorem Governs.covers {commands : List Command} (hD : D.Governs h commands) : D.Covers h :=
  fun _ _ _ ht hr => hD _ _ (.file ht hr)

theorem run_constant (h : Host) (depth : Nat) (c : Context) (l : Location) (k : Constant)
    (m : Machine) :
    run h (depth + 1) (.eval c (.expr (.constant l k))) m = .ok (Value.ofConstant k) m := rfl

theorem stmt_binding_constant (h : Host) (depth : Nat) (c : Context) (l k : Location) (x : Ident)
    (a : Constant) :
    stmt h ((run h depth).below h (.node .binding l)) c (.expr (.binding l x (.constant k a))) = do
      let v ← run h (depth - h.platform.between (.node .binding l) (.node .constant k))
        (.eval c (.expr (.constant k a)))
      define c x v false
      return v := by
  change ((run h depth).below h (.node .binding l) (.eval c (.expr (.constant k a))) >>= _) = _
  rw [below_run]
  rfl

/-- Runs to any depth agree on all tasks. -/
theorem run_agrees (D : Discipline) (h : Host) (hfiles : D.Covers h) (depth : Nat) :
    (D.simulation h hfiles).Follows (run h depth) (run h depth) := by
  refine Simulation.run_follows (fun _ _ => ⟨trivial, .inl trivial, .inl trivial⟩) (fun _ => trivial) ?_ depth
  intro depth _ w c s c' s' hd
  obtain ⟨hc, hcode, hx⟩ := hd
  rename_i path l k x a b
  have hseen : ¬ (D.simulation h hfiles).Seen c := by
    intro hn
    have hnone : c.module = none := hn
    rw [hcode] at hnone
    cases hnone
  refine Worlds.Agree.located (S := D.worlds) ?_ h l
  change D.worlds.Agree w _ (stmt h ((run h depth).below h (.node .binding l)) c _)
    (stmt h ((run h depth).below h (.node .binding l)) c _)
  -- both literals lie equally many levels down
  rw [stmt_binding_constant, stmt_binding_constant]
  cases depth - h.platform.between (.node .binding l) (.node .constant k) with
  | zero => exact Worlds.agree_throw _
  | succ depth =>
    refine agree_moves fun hs n ha => ?_
    have hrecord : ∃ i, (w.frame c.scope.frame).record = some i := by
      cases hr : (w.frame c.scope.frame).record with
      | some i => exact ⟨i, rfl⟩
      | none =>
        rw [hc.outside hr] at hcode
        cases hcode
    obtain ⟨i, hi⟩ := hrecord
    have hsecret : ∀ p, c.module = some p → D.Secret p x := by
      intro p hp
      rw [hcode] at hp
      cases hp
      exact hx
    obtain ⟨m', n', hm, hn, hmoves⟩ := define_secret_moves hs ha hc.toGood hi hsecret
      (Value.ofConstant a) (Value.ofConstant b)
    refine ⟨Value.ofConstant a, Value.ofConstant b, m', n', ?_, ?_, hmoves, ?_⟩
    · rw [bind_of_ok (run_constant h depth c k a w), bind_of_ok hm]
      rfl
    · rw [bind_of_ok (run_constant h depth c k b n), bind_of_ok hn]
      rfl
    · exact fun hn => absurd hn hseen

/-! ## Commands -/

/-- The frames of a session belong to no module. -/
structure Started (m : Machine) : Prop where
  size : 3 ≤ m.frames.size
  record : ∀ i < 3, (m.frame i).record = none

theorem Started.later {m' : Machine} (h : Started m) (hg : Grows m m') : Started m' := by
  refine ⟨Nat.le_trans h.size hg.frames, fun i hi => ?_⟩
  rw [hg.attached i (Nat.lt_of_lt_of_le hi h.size)]
  exact h.record i hi

/-- A program and one that differs from it in the literals of secret members only. -/
theorem runs (hm : Started m) {source : Text} {globals : FrameId} (hg : globals < 3)
    (outer : List FrameId) {program program' : Program}
    (hp : D.DeclareAll source none program program') :
    (D.simulation h hfiles).Runs m source globals outer program program' := by
  refine agree_moves fun hs n ha => ?_
  have hmoves := moves_pushExports hs ha
  have hsize : n.exports.size = m.exports.size := ha.same (·.exports.size) fun _ => rfl
  have hplaced : Placed { m with exports := m.exports.push [] }
      (top ⟨source, globals, m.exports.size⟩ outer) := by
    refine ⟨⟨Nat.lt_of_lt_of_le hg hm.size, fun i hi => ?_⟩, fun _ => rfl⟩
    have hrecord := hm.record globals hg
    change (m.frame globals).record = some i at hi
    rw [hrecord] at hi
    cases hi
  refine ⟨⟨source, globals, m.exports.size⟩, ⟨source, globals, m.exports.size⟩, _, _, rfl, ?_,
    hmoves, rfl, rfl, hp.forall₂.imp fun _ _ ht => ⟨rfl, hplaced, ht⟩⟩
  rw [← hsize]
  rfl

/-- A program and one that differs from it in the literals of secret members only yield the same. -/
theorem runProgram_agrees (hf : (D.simulation h hfiles).Follows self self') (hm : Started m)
    {source : Text} {program program' : Program} (hp : D.DeclareAll source none program program') :
    D.worlds.Agree m (fun w a b => a.2 = b.2 ∧ (D.like w).Matches a.1 b.1)
      (runProgram h self source program) (runProgram h self' source program') := by
  have hglobal : globalFrame < 3 := by decide
  refine (Simulation.runProgram_agrees hf (runs hm hglobal _ hp)).imp ?_
  rintro w ⟨v, e⟩ ⟨v', e'⟩ - ⟨hv, s, _, rfl, rfl, rfl⟩
  exact ⟨rfl, hv⟩

theorem perform_agrees {commands : List Command} {command : Command} (hD : D.Governs h commands)
    (hmem : command ∈ commands) (hf : (D.simulation h hfiles).Follows self self')
    (hm : Started m) :
    D.worlds.Agree m (fun w => (D.like w).Matches) (command.perform h self)
      (command.perform h self') := by
  have hglobal : globalFrame < 3 := by decide
  refine Simulation.perform_agrees (S := D.simulation h hfiles) hf ?_
  cases command with
  | source name text => exact fun program hr => runs hm hglobal _ (hD _ _ (.source hmem hr))
  | file name =>
    exact fun w' text program hl ht hr => runs (hm.later hl) hglobal _ (hD _ _ (.file ht hr))

/-! ## Reachable machines -/

/-- The machine of a session between commands. -/
structure Steady (D : Discipline) (m : Machine) : Prop where
  sound : D.Sound m
  started : Started m

theorem Steady.next {α : Type} {P : Machine → α → α → Prop} {x : Eval α} (hm : D.Steady m)
    (hx : D.worlds.Agree m P x x) : D.Steady (endOf (x m)) := by
  obtain ⟨w, hg, hw, hs, -⟩ := (hx m m ⟨rfl, hm.sound, alike_refl m⟩).machines
  rw [← hw]
  exact ⟨hw ▸ hs, hm.started.later hg⟩

theorem blank_steady (D : Discipline) (input : Text) : D.Steady (blank input) := by
  refine ⟨⟨?_, ?_, ?_, ?_, ?_, ?_, ?_⟩, ⟨Nat.le_refl 3, fun i _ => record_blank input i⟩⟩
  · intro i n v hn
    rcases frame_blank input i with he | he
    · rw [he] at hn
      obtain ⟨k, -, hk⟩ := List.mem_map.mp hn
      cases hk
      exact .plain rfl
    · rw [he] at hn
      cases hn
  · intro i n v hn
    simp [Machine.record, blank] at hn
    cases hn
  · intro i n v hn
    simp [Machine.record, blank] at hn
    cases hn
  · intro i n v hn
    simp [Machine.exportsOf, blank] at hn
  · intro p e n v he
    cases he
  · intro i r hr
    rw [record_blank] at hr
    cases hr
  · intro i n s hn
    simp [Machine.record, blank] at hn
    cases hn

theorem start_steady {commands : List Command} (hD : D.Governs h commands) (input : Text) :
    D.Steady (start h input).machine := by
  have hblank := blank_steady D input
  unfold start
  by_cases hp : h.hasPrelude = true
  · have hprelude : preludeFrame < 3 := by decide
    have hrun := run_agrees D h hD.covers h.ownDepth
    have hload := Simulation.prepare_agrees hrun fun program hr =>
      runs hblank.started hprelude [builtinsFrame] (hD _ _ (.prelude hp hr))
    have hnext := hblank.next hload
    rw [← loadPrelude_eq] at hnext
    rw [if_pos hp]
    cases hl : loadPrelude h (blank input) with
    | ok a m =>
      rw [hl] at hnext
      exact hnext
    | error e m =>
      rw [hl] at hnext
      exact hnext
  · rw [if_neg hp]
    exact hblank

/-- Whatever a session was given, its machine is sound. -/
theorem after_steady {commands : List Command} (hD : D.Governs h commands) (input : Text)
    {history : List Command} (hsub : ∀ c ∈ history, c ∈ commands) :
    (after h input history).host = h ∧ D.Steady (after h input history).machine := by
  induction history using List.reverseRecOn with
  | nil => exact ⟨start_host h input, start_steady hD input⟩
  | append_singleton history c ih =>
    obtain ⟨hhost, hm⟩ := ih fun d hd => hsub d (List.mem_append_left _ hd)
    rw [after_append, perform_session, hhost]
    have hrun := run_agrees D h hD.covers h.depth
    exact ⟨rfl, hm.next (perform_agrees hD (hsub c (by simp)) hrun hm.started)⟩

/-! ## Orderly programs -/

mutual

/-- An orderly statement whose nodes are all allowed where they stand keeps the discipline. -/
theorem declares_of_within {source : Text} {code : Option ModulePath} :
    ∀ {s : Stmt}, Orderly s → (∀ inner t, Within source code s inner t → D.Node inner t) →
      D.Declares source code s s
  | .expr e, _, hn => .node rfl (hn code _ (.refl code _))
  | .publicBinding l n e, _, hn => .node rfl (hn code _ (.refl code _))
  | .variation l n l' ps e, _, hn => .node rfl (hn code _ (.refl code _))
  | .imports l ns path, _, hn => .node rfl (hn code _ (.refl code _))
  | .module l isPublic n body, ho, hn => by
    have hbody : ∀ s ∈ body, Orderly s := fun s hs => ho.member hs
    have hnodes : ∀ s ∈ body, ∀ inner t,
        Within source (some (.below source code n)) s inner t → D.Node inner t :=
      fun s hs inner t ht => hn inner t (.member hs ht)
    exact .module (hn code _ (.refl code _)) (declareAll_of_within hbody hnodes)

theorem declareAll_of_within {source : Text} {code : Option ModulePath} :
    ∀ {ss : List Stmt}, (∀ s ∈ ss, Orderly s) →
      (∀ s ∈ ss, ∀ inner t, Within source code s inner t → D.Node inner t) →
      D.DeclareAll source code ss ss
  | [], _, _ => .nil
  | s :: ss, ho, hn => by
    have hrest : ∀ t ∈ ss, Orderly t := fun t ht => ho t (.tail _ ht)
    have hnodes : ∀ t ∈ ss, ∀ inner u, Within source code t inner u → D.Node inner u :=
      fun t ht => hn t (.tail _ ht)
    exact .cons (declares_of_within (ho s (.head _)) (hn s (.head _)))
      (declareAll_of_within hrest hnodes)

end

end Discipline

end ModuleScript
