import ModuleScript.Proofs.Afresh.Actions
import ModuleScript.Proofs.Afresh.Shown
import ModuleScript.Proofs.Invariant.Together
import ModuleScript.Proofs.Simulation.Sessions

/-!
# Runs across a gap

Two runs of the same code on machines that differ by a gap end with values that correspond or with
the same failure, on machines that differ by the gap, if they come to none of the modules and files that
only one of them knows of.
-/

set_option autoImplicit false

namespace ModuleScript.Gaps

open Eval Session Invariant

theorem exported_eq {g : Gaps} {m n : Machine} (h : m.Gapped g n) (s : Site) :
    g.like.Exported (m.exportsOf (s.past g).exports) (n.exportsOf s.exports) :=
  h.exported s.exports

/-- A module opened at corresponding places for one body. -/
abbrev Bodies (g : Gaps) (c : Context) (ss : List Stmt) (o : Opened) (c' : Context) (ss' : List Stmt)
    (o' : Opened) : Prop :=
  c = c'.past g ∧ ss = ss' ∧ g.Opens o o'

/-- A module that both runs know of, or neither, is opened in both or refused in both. -/
theorem opened_ends {g : Gaps} {m n : Machine} {w : Unit} (h : m.Gapped g n) (c : Context)
    (isPublic : Bool) (x : Ident) (body : List Stmt) (hp : ¬ g.modules (n.pathFor c x)) :
    g.worlds.Ends w (fun _ o o' => g.Bodies (c.past g) body o c body o')
      (openModule (c.past g) isPublic x m) (openModule c isPublic x n) := by
  have hopens := openModule_ends (w := w) h c isPublic x hp
  generalize openModule (c.past g) isPublic x m = r, openModule c isPublic x n = r' at hopens
  cases hopens with
  | ok _ hk ho => exact Worlds.ends_ok hk ⟨rfl, rfl, ho⟩
  | error _ hk => exact Worlds.ends_error hk _

/-- Two runs of the same code. -/
def simulation (g : Gaps) (h : Host) : Simulation h where
  toWorlds := g.worlds
  like _ := g.like
  Sites _ s s' := s = s'.past g
  Code _ c c' _ := c = c'.past g
  Decl _ c s c' s' := c = c'.past g ∧ s = s'
  Apart _ _ _ _ _ := False
  apart_work := False.elim
  Body _ c _ ss o c' ss' o' := g.Bodies c ss o c' ss' o'
  Seen _ := True
  Defines _ _ := True
  Varies := True
  Declares := ∀ p, ¬ g.modules p
  Seeks p := ¬ g.files p
  closure_later _ h := h
  module_later _ h := h
  sites_later _ h := h
  code_later _ h := h
  decl_later _ h := h
  body_later _ h := h
  site_source := by
    rintro w s s' rfl
    rfl
  code_site := by
    rintro w c c' s rfl
    rfl
  code_part h _ := h
  enter := by
    rintro w c c' s f f' rfl - hf
    exact (enter_agrees c' (frame_gapped hf)).imp fun _ _ _ _ hd _ _ => hd
  arities := by
    rintro w a b rfl
    exact Closure.arities_past g b
  variant := by
    rintro w a b rfl n
    rw [Closure.variant?_past]
    cases b.variant? n with
    | none => exact .none
    | some v =>
      refine .some ⟨rfl, rfl, ?_⟩
      rintro s s' f f' rfl hf
      exact enter_agrees ⟨s', v.scope, v.module⟩ (frame_gapped hf)
  name := by
    rintro w c c' l n rfl
    exact (resolve_agrees c' n).imp fun _ _ _ _ hr => hr.2
  dotted := by
    rintro w c c' l ns rfl
    exact dotted_agrees c' ns
  define := by
    rintro w c c' s n isPublic v v' - rfl - hv
    exact define_agrees c' n hv isPublic
  lambda := by
    rintro w c c' l n ps body rfl
    exact newClosure_agrees n [variantHere c' ps body]
  vary := by
    rintro w c c' l n l' ps body - rfl
    exact vary_agrees c' n (variantHere c' ps body)
  module := by
    rintro w c c' l isPublic n body hd rfl m m' hm
    exact opened_ends (w := w) hm c' isPublic n body (hd _)
  write t := Worlds.agree_modify fun _ _ hm => hm.write t
  readLine := by
    intro w m n hm
    unfold readLine
    rw [hm.input]
    exact Worlds.ends_ok (hm.setInput _) (.plain (Value.isPlain_line _ _))
  declared := by
    rintro w c s c' s' ⟨hc, rfl⟩
    exact .same hc
  body_module := by
    rintro w c n ss o c' ss' o' ⟨-, -, ho⟩
    exact ⟨ho.id, ho.path⟩
  body_members := by
    rintro w c n ss o c' ss' o' ⟨-, rfl, ho⟩
    refine (declareMembers_agrees ho.id ss).imp fun _ _ _ _ _ => ?_
    exact List.forall₂_same.mpr fun _ _ => ⟨ho.inner, rfl⟩
  body_restore := by
    rintro w c n ss o c' ss' o' m m' ⟨rfl, -, ho⟩ hm
    rw [ho.path]
    exact ⟨w, trivial, restore_gapped (Machine.Gapped.removeModule hm o'.path) c' n ho.old⟩
  loaded p hp hm := Machine.Gapped.loaded hm p hp
  begin_loading := by
    intro w p
    exact Worlds.agree_change fun m n hm =>
      Machine.beginLoading_rel hm.loading p fun paths => hm.setLoading paths
  abort_loading := by
    intro w m n p hm
    have hm : m.Gapped g n := hm
    have hend : (m.abortLoading p).Gapped g (n.abortLoading p) := by
      unfold Machine.abortLoading
      rw [hm.loading]
      exact hm.setLoading _
    exact ⟨w, trivial, hend⟩
  finish_loading := by
    intro w e e' p he
    exact Worlds.agree_change fun m n hm =>
      Machine.finishLoading_rel hm.loading p fun paths => (hm.setLoaded p he).setLoading paths
  file := by
    intro w p t program _ _ _
    refine (openFile_agrees p).imp fun _ s s' _ hs => ⟨hs, fun st _ => ⟨?_, rfl⟩⟩
    have hs : s = s'.past g := hs
    rw [hs]
    exact (top_past g s').symm
  exports := by
    rintro w s s' m n rfl hm
    exact exported_eq hm s'

variable {g : Gaps} {m n : Machine} {h : Host}

/-- The task comes to nothing that only one of the runs knows of. -/
abbrev Avoids (g : Gaps) (h : Host) : Task → Machine → Prop := Eval.Avoids h g.modules g.files

theorem avoids_past (hm : m.Gapped g n) {c : Context} {s : Stmt} :
    g.Avoids h (.eval (c.past g) s) m ↔ g.Avoids h (.eval c s) n := by
  constructor
  · rintro ⟨hmodule, hfile⟩
    refine ⟨?_, ?_⟩
    · rintro d l isPublic x body ⟨⟩
      rw [← pathFor_past hm c x]
      exact hmodule rfl
    · rintro d l names path p ⟨⟩ hp
      exact hfile rfl hp
  · rintro ⟨hmodule, hfile⟩
    refine ⟨?_, ?_⟩
    · rintro d l isPublic x body ⟨⟩
      rw [pathFor_past hm c x]
      exact hmodule rfl
    · rintro d l names path p ⟨⟩ hp
      exact hfile rfl hp

/-- What is not a node comes to nothing. -/
theorem avoids_of_not_node {t : Task} (ht : ∀ c s, t ≠ .eval c s) : g.Avoids h t m :=
  ⟨fun he => absurd he (ht _ _), fun he => absurd he (ht _ _)⟩

theorem watched_of_avoids {alarm : Step} {depth : Nat} {t : Task} (ht : ∀ c s, t ≠ .eval c s) :
    watched h (g.Avoids h) alarm (depth + 1) t = step h (watched h (g.Avoids h) alarm depth) t :=
  funext fun _ => watched_of_check (avoids_of_not_node ht) alarm depth

theorem deeds_of_avoids {self self' : Step} {c : Context} {s : Stmt} {w : Unit}
    (hf : (g.simulation h).Follows self self') (hm : m.Gapped g n)
    (ha : g.Avoids h (.eval c s) n) :
    (g.simulation h).Deeds h self self' w (c.past g) c s m n where
  defines := trivial
  vary := by
    rintro l x l' ps body rfl
    exact vary_agrees c x (variantHere c ps body) m n hm
  opens := by
    rintro l isPublic x body rfl
    exact opened_ends (w := w) hm c isPublic x body (ha.module rfl)
  loads := by
    rintro l names path rfl
    exact Simulation.load_ends (S := g.simulation h) hf path c.site.source hm fun p hp =>
      ha.file rfl hp

/-- Runs that give up where they come to something that only one of them knows of. -/
theorem watched_follows (g : Gaps) (h : Host) (f : Fault) (depth : Nat) :
    (g.simulation h).Follows (watched h (g.Avoids h) (flag fun _ _ => f) depth)
      (watched h (g.Avoids h) (flag fun _ _ => f) depth) := by
  induction depth with
  | zero => exact Actions.follows_tooDeep _ _ (fun _ => rfl) fun _ => rfl
  | succ depth ih =>
    have hcode : ∀ {w c s}, g.worlds.Agree w g.Values
        (watched h (g.Avoids h) (flag fun _ _ => f) (depth + 1) (.eval (c.past g) s))
        (watched h (g.Avoids h) (flag fun _ _ => f) (depth + 1) (.eval c s)) := by
      intro w c s m n hm
      by_cases ha : g.Avoids h (.eval c s) n
      · rw [watched_of_check ha, watched_of_check ((avoids_past hm).mpr ha)]
        exact Actions.code_ends (S := (g.simulation h).toActions) ih (c := c.past g) rfl
          (deeds_of_avoids (ih.below h _) hm ha) hm
      · rw [watched_of_not_check ha, watched_of_not_check fun ha' => ha ((avoids_past hm).mp ha')]
        exact Worlds.ends_error hm _
    have hattends : (g.simulation h).Attends
        (watched h (g.Avoids h) (flag fun _ _ => f) (depth + 1))
        (watched h (g.Avoids h) (flag fun _ _ => f) (depth + 1)) := by
      refine ⟨?_, ?_, ?_, ?_⟩
      · rintro w _ c s rfl
        exact hcode
      · rintro w _ s c _ ⟨rfl, rfl⟩
        exact hcode.imp fun _ _ _ _ hv _ => hv
      · intro w s s' u u' args args' hs hu hargs
        rw [watched_of_avoids fun _ _ => Task.noConfusion, watched_of_avoids fun _ _ => Task.noConfusion]
        exact Actions.apply_step_agrees ih hs hu hargs
      · intro w d
        rw [watched_of_avoids fun _ _ => Task.noConfusion]
        exact Actions.ask_agrees h _ _ d
    refine hattends.follows (fun t _ => ?_) ih
    rw [watched_of_avoids fun _ _ => Task.noConfusion]
    exact ⟨rfl, rfl⟩

/-! ## Sessions -/

theorem given_runs (g : Gaps) (h : Host) (source : Text) (program : Program) (w : Unit) :
    (g.simulation h).Runs w source globalFrame [preludeFrame, builtinsFrame] program program := by
  have hnew := newSite_agrees (w := w) (g := g) source globalFrame
  rw [g.past_ground (Nat.le_refl globalFrame)] at hnew
  refine hnew.imp fun _ s s' _ hs => ⟨hs, trivial, List.forall₂_same.mpr fun st _ => ⟨?_, rfl⟩⟩
  have hs : s = s'.past g := hs
  rw [hs]
  exact (g.top_past s').symm

theorem performs (g : Gaps) (h : Host) (w : Unit) (command : Command) :
    (g.simulation h).Performs w command := by
  cases command with
  | source name text => exact fun program _ => given_runs g h name program ⟨⟩
  | file name => exact fun w' text program _ _ _ => given_runs g h _ program w'

/-- A command that comes to nothing that only one of the machines knows of ends alike on both. -/
theorem perform_ends (hm : m.Gapped g n) {command : Command}
    (ha : Throughout h h.depth (g.Avoids h) (command.perform h) n) (w : Unit) :
    g.worlds.Ends w g.Values (command.perform h h.runner m) (command.perform h h.runner n) := by
  obtain ⟨f, hf⟩ := exists_marker (command.perform h h.runner n)
  have hends :=
    Simulation.perform_agrees (watched_follows g h f h.depth) (performs g h w command) m n hm
  have hn := ha (flag fun _ _ => f)
  dsimp only at hn
  rw [hn] at hends
  have hquits := @watched_eq_run_or_quits _ h (g.Avoids h) h.depth _ _
    (uniform_perform h command m) f
  rcases hquits with he | ⟨k, he⟩
  · rw [he] at hends
    exact hends
  · rw [he] at hends
    change g.worlds.Ends w g.Values _ (command.perform h h.runner n) at hends
    generalize command.perform h h.runner n = r at hends hf
    cases hends with
    | error => exact absurd rfl (hf _)

/-- Sessions on machines that differ by a gap show the same of commands that come to nothing that only
one of them knows of. -/
theorem shows_eq (hm : m.Gapped g n) {commands : List Command}
    (ha : Session.Avoids g.modules g.files ⟨h, n⟩ commands) :
    Session.shows ⟨h, m⟩ commands = Session.shows ⟨h, n⟩ commands := by
  induction commands generalizing m n with
  | nil => rfl
  | cons c later ih =>
    obtain ⟨hc, hlater⟩ := ha
    have hends := perform_ends hm hc ⟨⟩
    unfold Session.perform at hlater
    unfold Session.shows Session.perform
    dsimp only at hlater ⊢
    generalize c.perform h h.runner m = r, c.perform h h.runner n = r' at hends hlater
    cases hends with
    | @ok _ v v' k k' _ hk hv =>
      have hk : k.Gapped g k' := hk
      dsimp only [Machine.output, Except.map]
      rw [sketch_eq hv, hk.written, ih hk hlater]
    | @error _ e k k' _ hk =>
      have hk : k.Gapped g k' := hk
      dsimp only [Machine.output, Except.map]
      rw [hk.written, ih hk hlater]

end ModuleScript.Gaps
