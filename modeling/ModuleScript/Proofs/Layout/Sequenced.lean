import ModuleScript.Proofs.Layout.Runs
import ModuleScript.Proofs.Locations
import ModuleScript.Proofs.Sequences

/-!
# Elements in a frame of their own

A sequence evaluates its elements in a frame that is made for it; a list literal evaluates them where
it stands, and the native `seq` takes the last element of the list. If no element binds a name where
it stands, the frame of the sequence stays idle and both ways agree.
-/

set_option autoImplicit false

namespace ModuleScript

open Eval Session

namespace Layout

variable {h : Host} {self self' : Step} {w : Layout} {m : Machine} {c c' : Context}
  {es : List Expr} {depth : Nat}

/-- The elements of a list have the values that the same elements have as statements, of which the
last is the value of them all. -/
theorem elements_agree (hf : (simulation h).Follows self self')
    (hes : ∀ e ∈ es, w.Code c c' (.expr e)) {v v' : Value} (hv : w.Values v v') :
    worlds.Agree w (fun w' vs u => w'.Values (vs.getLast?.getD v) u) (self.exprs c es)
      ((es.map Stmt.expr).foldlM (fun _ s => self' (.eval c' s)) v') := by
  unfold Step.exprs
  induction es generalizing w v v' with
  | nil => exact Worlds.agree_pure hv
  | cons e es ih =>
    obtain ⟨he, hes⟩ := List.forall_mem_cons.mp hes
    rw [List.mapM_cons, List.map_cons, List.foldlM_cons]
    refine (hf.code he).bind fun w₁ u u' hl hu => ?_
    have hrest := ih (fun e he => (hes e he).later hl) hu
    have hall : worlds.Agree w₁ (fun w' vs x => Values w' (vs.getLast?.getD v) x)
        (do let vs ← es.mapM (self.expr c); pure (u :: vs))
        ((es.map Stmt.expr).foldlM (fun _ s => self' (.eval c' s)) u' >>= pure) := by
      refine hrest.bind fun w₂ vs x _ hx => Worlds.agree_pure ?_
      rwa [List.getLast?_cons, Option.getD_some]
    rwa [bind_pure] at hall

/-! ## Both ways -/

/-- The list literal, and the native applied to its value. -/
def lastOfList (h : Host) (depth depth' : Nat) (c : Context) (l : Location) (es : List Expr) :
    Eval Value := do
  let v ← run h depth (.eval c (.expr (.list l es)))
  run h depth' (.apply c.site (.native .seq) [v])

theorem lastOfList_eq (depth depth' : Nat) (c : Context) (l : Location) (es : List Expr) :
    lastOfList h.flat (depth + 1) (depth' + 2) c l es =
      (run h.flat depth).exprs c es >>= fun vs => pure (vs.getLast?.getD .unit) := by
  have hlist : run h.flat (depth + 1) (.eval c (.expr (.list l es))) =
      (run h.flat depth).exprs c es >>= fun vs => pure (Value.ofItems vs) := by
    refine located_of_placing (Placing.bind ?_ fun vs => placing_pure _) h l
    exact placing_mapM fun e => placing_eval h.flat depth c (.expr e)
  have hseq : ∀ vs, run h.flat (depth' + 2) (.apply c.site (.native .seq) [Value.ofItems vs]) =
      pure (vs.getLast?.getD .unit) := by
    intro vs
    rw [run_native]
    change lift (Value.ofItems vs).last = _
    rw [Value.last_ofItems]
    rfl
  unfold lastOfList
  rw [hlist, bind_assoc]
  exact bind_congr fun vs => (pure_bind _ _).trans (hseq vs)

theorem run_sequence (depth : Nat) (c : Context) (l : Location) (es : List Expr) (m : Machine) :
    run h.flat (depth + 1) (.eval c (.expr (.sequence l es))) m =
      (run h.flat depth).stmts { c with scope := c.scope.push m.frames.size } (es.map .expr)
        (m.pushFrame { name := "seq" }) := by
  have hplacing : Placing (do
      let inner ← c.enter { name := "seq" }
      (run h.flat depth).stmts inner (es.map .expr)) := by
    refine Placing.bind nofun fun inner => ?_
    exact placing_foldlM (fun _ s => placing_eval h.flat depth inner s) Value.unit
  exact congrFun (located_of_placing hplacing h l) m

/-- Given the same depth, both ways end alike. -/
theorem sequence_ends (hm : m.Ranged) (hc : m.extent.HasContext c)
    (hes : ∀ e ∈ es, Still (.expr e)) (l l' : Location) (depth depth' : Nat) :
    EndAlike Eq m (lastOfList h.flat (depth + 1) (depth' + 2) c l es m)
      (run h.flat (depth + 1) (.eval c (.expr (.sequence l' es))) m) := by
  have hl : start m.frames.size <+: start m.frames.size ++ [.aside { name := "seq" }] :=
    List.prefix_append _ _
  have hmachines := (machines_start hm).pushAside { name := "seq" }
  have hchain : Chain (start m.frames.size ++ [.aside { name := "seq" }]) c.scope.chain
      (m.frames.size :: c.scope.chain) := by
    refine .idle (f := { name := "seq" }) ?_ ⟨rfl, rfl⟩ ((chain_start hc.scope).later hl)
    exact getElem?_push.mpr (.inr ⟨(length_start _).symm, rfl⟩)
  have hcode : ∀ e ∈ es, Code (start m.frames.size ++ [.aside { name := "seq" }]) c
      { c with scope := c.scope.push m.frames.size } (.expr e) := fun e he =>
    ⟨⟨(contexts_start hc).site.later hl, hchain, rfl⟩, .inl (hes e he)⟩
  have hvalues := elements_agree (follows h.flat depth) hcode (.plain (v := .unit) rfl)
  have hboth : worlds.Agree _ Values
      ((run h.flat depth).exprs c es >>= fun vs => pure (vs.getLast?.getD .unit))
      ((run h.flat depth).stmts { c with scope := c.scope.push m.frames.size } (es.map .expr) >>= pure) :=
    hvalues.bind fun _ _ _ _ hv => Worlds.agree_pure hv
  rw [bind_pure] at hboth
  rw [lastOfList_eq, run_sequence]
  exact endAlike_of_ends (fun _ => rfl) hl (hboth m _ hmachines)

theorem lastOfList_cut {d₁ d₂ e₁ e₂ : Nat} (h₁ : d₁ ≤ e₁) (h₂ : d₂ ≤ e₂) (c : Context)
    (l : Location) (es : List Expr) :
    Limits.Cut (· = .tooDeep) (lastOfList h d₁ d₂ c l es) (lastOfList h.flat e₁ e₂ c l es) :=
  Limits.Cut.bind (Limits.run_cut_flat h h₁ _) fun v => Limits.run_cut_flat h h₂ (.apply c.site _ [v])

/-- Elements that bind no name where they stand can be evaluated in a frame of their own or as those of
a list of which the native `seq` takes the last: unless the depth is too small for either, both ways end
with the same value or failure, and the same output and effects, but for the numbers of frames. This is
so on all machines that refer to nothing that has not been made, as in every session all do. -/
theorem sequences_agree (h : Host) :
    (∀ (m : Machine) (c : Context), m.Ranged → m.extent.HasContext c →
      ∀ es : List Expr, (∀ e ∈ es, Still (.expr e)) → ∀ (l l' : Location) (d₁ d₂ d₃ : Nat),
        ¬ TooDeep (lastOfList h d₁ d₂ c l es m) →
        ¬ TooDeep (run h d₃ (.eval c (.expr (.sequence l' es))) m) →
        EndAlike Eq m (lastOfList h d₁ d₂ c l es m)
          (run h d₃ (.eval c (.expr (.sequence l' es))) m)) ∧
    ∀ (input : Text) (history : List Command) (command : Command),
      Throughout h h.depth (fun t m => m.Ranged ∧ ∀ c s, t = .eval c s → m.extent.HasContext c)
        (command.perform h) (after h input history).machine := by
  refine ⟨?_, Machine.begins_ranged h⟩
  intro m c hm hc es hes l l' d₁ d₂ d₃ hlist hsequence
  have hone : d₁ ≤ d₁ + d₃ + 1 := by omega
  have htwo : d₂ ≤ d₂ + 2 := by omega
  have hthree : d₃ ≤ d₁ + d₃ + 1 := by omega
  have hfirst := eq_of_not_tooDeep (lastOfList_cut hone htwo c l es) hlist
  have hsecond := eq_of_not_tooDeep (Limits.run_cut_flat h hthree _) hsequence
  rw [hfirst, hsecond]
  exact sequence_ends hm hc hes l l' (d₁ + d₃) d₂

/-- Two elements, the last of which is a list. -/
def elements : List Expr := [.constant nowhere (.bool true), .name nowhere "xs"]

theorem still_elements : ∀ e ∈ elements, Still (.expr e) := by
  have hleaf : ∀ {s : Stmt}, s.binds = [] → s.isModule = false → s.inPlace = [] → Still s :=
    fun hb hm hp => .node hb hm fun t ht => by rw [hp] at ht; cases ht
  exact List.forall_mem_cons.mpr ⟨hleaf rfl rfl rfl, List.forall_mem_singleton.mpr (hleaf rfl rfl rfl)⟩

theorem sequences_agree_elements :
    wordsMachine.Ranged ∧ wordsMachine.extent.HasContext beside ∧
      (∀ e ∈ elements, Still (.expr e)) ∧
      EndAlike Eq wordsMachine
        (lastOfList (hostWith []) 20 20 beside nowhere elements wordsMachine)
        (run (hostWith []) 20 (.eval beside (.expr (.sequence nowhere elements))) wordsMachine) := by
  have hlist : endsWith (fun _ => true)
      (lastOfList (hostWith []) 20 20 beside nowhere elements wordsMachine) = true := by
    decide +kernel
  have hsequence : endsWith (fun _ => true)
      (run (hostWith []) 20 (.eval beside (.expr (.sequence nowhere elements))) wordsMachine) = true := by
    decide +kernel
  exact ⟨ranged_wordsMachine, hasContext_beside, still_elements,
    (sequences_agree (hostWith [])).1 wordsMachine beside ranged_wordsMachine hasContext_beside elements
      still_elements nowhere nowhere 20 20 20 (not_tooDeep_of_endsWith hlist)
      (not_tooDeep_of_endsWith hsequence)⟩

end Layout

end ModuleScript
