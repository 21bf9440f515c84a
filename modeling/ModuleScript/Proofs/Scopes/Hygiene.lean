import ModuleScript.Proofs.Scopes.Homes

/-!
# Code sees its own source only

In every session, whenever a node is evaluated, the scope it runs in ends with the own frame of the
source that the node was written in, the prelude and the natives, and all frames before these were
made for constructs of the same source. So names are found in the node's own source, in the prelude
or among the natives, whoever calls the function that the node is part of.
-/

set_option autoImplicit false

namespace ModuleScript

open Eval Session

namespace Hygiene

variable (h : Host) (commands : List Command)

/-- A node of this origin is evaluated in a scope of the same origin. -/
structure AtHome (w : Homes) (m : Machine) (c : Context) (s : Stmt) (o : Origin) : Prop where
  runs : Homes.Runs h commands w o c.scope.chain s
  contains : o.Contains h commands s
  ground : w[o.globals]? = some (.outermost o)
  chain : ∃ inner, c.scope.chain = inner ++ o.ground ∧ ∀ f ∈ inner, ∃ t,
    w[f]? = some (.inside o t) ∧ o.Contains h commands t ∧ t.enclosed ≠ []
  names : ∀ n r, m.lookup c.scope n = some r →
    (∃ t, w[r.frame]? = some (.inside o t)) ∨ r.frame ∈ o.ground

/-- Nodes are evaluated at home; functions that are called, and those given to them, run at home. -/
def Fitting (w : Homes) : Task → Machine → Prop
  | .eval c s, m => ∃ o, AtHome h commands w m c s o
  | .apply _ f args, _ =>
    f.Carries (Homes.Good h commands w) ∧ ∀ v ∈ args, v.Carries (Homes.Good h commands w)
  | _, _ => True

/-- Code is at home when the task begins, when any task begins that it leads to, and when it ends;
what a frame was made for stays what it is. -/
def Sheltered (w : Homes) (t : Task) (m : Machine) : Prop :=
  Homes.Houses h commands w m ∧ Fitting h commands w t m ∧ ∀ depth,
    Throughout h depth (fun u k => ∃ w', w <+: w' ∧ Homes.Houses h commands w' k ∧
      Fitting h commands w' u k) (fun self => self t) m ∧
    ∃ w', w <+: w' ∧ Homes.Houses h commands w' (endOf (run h depth t m))

variable {h commands} {w w₀ : Homes} {o : Origin} {chain : List FrameId} {s : Stmt} {m : Machine}

theorem ground_of_runs (hr : Homes.Runs h commands w o chain s) :
    w[o.globals]? = some (.outermost o) := by
  induction hr with
  | top _ _ hg => exact hg
  | part _ _ ih => exact ih
  | inside _ _ _ ih => exact ih

theorem atHome_of_runs {c : Context} (hr : Homes.Runs h commands w o c.scope.chain s) :
    AtHome h commands w m c s o := by
  refine ⟨hr, hr.contains, ground_of_runs hr, hr.chain_eq, fun n r hl => ?_⟩
  obtain ⟨inner, hchain, hinner⟩ := hr.chain_eq
  obtain ⟨hmem, -⟩ := Machine.lookup_eq_some hl
  rw [hchain] at hmem
  rcases List.mem_append.mp hmem with hmem | hmem
  · obtain ⟨t, ht, -⟩ := hinner _ hmem
    exact .inl ⟨t, ht⟩
  · exact .inr hmem

theorem files (h : Host) (commands : List Command) (w₀ : Homes) :
    (Homes.conduct h commands w₀).Files h where
  setLoading paths hm := ⟨hm.1, hm.2.of_exporting rfl rfl (hm.2.holds.exporting.of_eq rfl rfl)⟩
  setLoaded p e hm he := ⟨hm.1, hm.2.of_exporting rfl rfl (hm.2.holds.exporting.setLoaded p he)⟩
  openFile {w m p t program} hm _ ht hp := by
    obtain ⟨hw, hm⟩ := hm
    refine ⟨_, List.prefix_append w _, ⟨hw.trans (List.prefix_append w _), hm.openFile p⟩, trivial,
      fun s hs => ?_⟩
    exact ⟨.file p m.frames.size, .top ⟨t, ht, hp⟩ hs (hm.getElem?_new _)⟩

theorem serving (h : Host) (commands : List Command) (w₀ : Homes) :
    (Homes.conduct h commands w₀).Serving h commands where
  files := files h commands w₀
  varies := trivial
  given {w m source globals outer program} hm hg := by
    obtain ⟨hw, hm⟩ := hm
    have hruns : ∀ o : Origin, o.Wrote h commands program → Homes.base[o.globals]? =
        some (.outermost o) → ∀ s ∈ program, Homes.Runs h commands w o o.ground s :=
      fun o hp ho s hs => .top hp hs (Homes.getElem?_later hm.begins ho)
    refine ⟨w, List.prefix_rfl, ⟨hw, hm.pushExports⟩, trivial, fun s hs => ?_⟩
    cases hg with
    | prelude hp => exact ⟨.prelude, hruns .prelude ⟨_, .prelude hp⟩ rfl s hs⟩
    | source hmem hp => exact ⟨.session, hruns .session ⟨_, .source hmem hp⟩ rfl s hs⟩
    | file hmem ht hp => exact ⟨.session, hruns .session ⟨_, .file hmem ht hp⟩ rfl s hs⟩

theorem fitting_of_allows {t : Task} (ht : (Homes.conduct h commands w₀).Allows w t) :
    Fitting h commands w t m := by
  cases t with
  | eval c s =>
    obtain ⟨o, hr⟩ := ht
    exact ⟨o, atHome_of_runs hr⟩
  | apply site f args => exact ht.2
  | ask | wait => trivial

theorem sheltered_of_allows {t : Task} (hm : Homes.Houses h commands w m)
    (ht : (Homes.conduct h commands w₀).Allows w t) : Sheltered h commands w t m := by
  have hfits : (Homes.conduct h commands w).Fits w m := ⟨List.prefix_rfl, hm⟩
  have hallows : (Homes.conduct h commands w).Allows w t := by
    induction t with
    | wait t ih => exact ih ht
    | _ => exact ht
  refine ⟨hm, fitting_of_allows ht, fun depth => ⟨?_, ?_⟩⟩
  · refine Conduct.throughout_task (files h commands w).imports trivial ?_ hfits hallows depth
    rintro w' k u ⟨hl, hk⟩ hu
    exact ⟨w', hl, hk, fitting_of_allows hu⟩
  · obtain ⟨w', -, hl, hk⟩ := Conduct.run_fits (files h commands w).imports trivial hfits hallows depth
    exact ⟨w', hl, hk⟩

/-- In every session all code runs at home, that of the prelude and of imported files as well as
that of the commands, and what frames were made for stays what it is from one command to the next. -/
theorem code_runs_at_home (h : Host) (input : Text) (history : List Command) (command : Command) :
    Throughout h h.depth (fun t m => ∃ w, Sheltered h [] w t m) (prepare h) (blank input) ∧
      ∃ w, Homes.Houses h (history ++ [command]) w (after h input history).machine ∧
        Throughout h h.depth (fun t m => ∃ w', w <+: w' ∧ Sheltered h (history ++ [command]) w' t m)
          (command.perform h) (after h input history).machine ∧
        ∃ w', w <+: w' ∧
          Homes.Houses h (history ++ [command]) w' (after h input (history ++ [command])).machine := by
  constructor
  · refine Conduct.throughout_prepare (serving h [] Homes.base) ?_
      ⟨List.prefix_rfl, .blank input⟩ h.depth
    rintro w m t ⟨-, hm⟩ ht
    exact ⟨w, sheltered_of_allows hm ht⟩
  · obtain ⟨-, w, -, -, hm⟩ := Conduct.after_fits
      (serving h (history ++ [command]) Homes.base)
      (⟨List.prefix_rfl, .blank input⟩ : (Homes.conduct h _ Homes.base).Fits Homes.base _)
      fun c hc => List.mem_append_left [command] hc
    have hserving := serving h (history ++ [command]) w
    have hfits : (Homes.conduct h (history ++ [command]) w).Fits w (after h input history).machine :=
      ⟨List.prefix_rfl, hm⟩
    refine ⟨w, hm, ?_, ?_⟩
    · refine Conduct.throughout_perform hserving ?_ hfits (by simp) h.depth
      rintro w' k t ⟨hl, hk⟩ ht
      exact ⟨w', hl, sheltered_of_allows hk ht⟩
    · obtain ⟨w', -, hl, hk⟩ := Conduct.perform_fits hserving hfits
        (List.mem_append_right history (.head _))
      rw [after_machine]
      exact ⟨w', hl, hk⟩

end Hygiene

end ModuleScript
