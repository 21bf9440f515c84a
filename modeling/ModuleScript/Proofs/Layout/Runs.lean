import ModuleScript.Proofs.Congruence.Limits
import ModuleScript.Proofs.Layout.Actions
import ModuleScript.Proofs.Scopes.Extent
import ModuleScript.Proofs.Simulation.Run

/-!
# Runs along a layout

The same code, run in corresponding contexts on machines that correspond along a layout, ends alike in
both runs. Code that binds nothing where it runs need not run in frames that are counterparts: the
second run may have idle frames in front.
-/

set_option autoImplicit false

namespace ModuleScript

open Eval

/-- The statement binds no name in the frame it runs in, and no node below it does that runs in the
same frame. -/
inductive Still : Stmt → Prop where
  | node {s : Stmt} : s.binds = [] → s.isModule = false → (∀ t ∈ s.inPlace, Still t) → Still s

namespace Still

variable {s t : Stmt}

theorem binds (h : Still s) : s.binds = [] := by
  obtain ⟨hb, -, -⟩ := h
  exact hb

theorem isModule (h : Still s) : s.isModule = false := by
  obtain ⟨-, hm, -⟩ := h
  exact hm

theorem part (h : Still s) (ht : t ∈ s.inPlace) : Still t := by
  obtain ⟨-, -, hp⟩ := h
  exact hp t ht

end Still

namespace Layout

/-- The statement may run in both contexts. -/
structure Code (w : Layout) (c c' : Context) (s : Stmt) : Prop extends Contexts w c c' where
  own : Still s ∨ w.Places c.scope.frame c'.scope.frame

variable {w w' : Layout} {m n : Machine} {c c' : Context} {s : Stmt}

theorem Aligned.code (h : w.Aligned c c') (s : Stmt) : w.Code c c' s := ⟨h.toContexts, .inr h.own⟩

theorem Code.later (hl : w <+: w') (h : w.Code c c' s) : w'.Code c c' s :=
  ⟨h.toContexts.later hl, h.own.imp id (.later hl)⟩

theorem Code.part {t : Stmt} (h : w.Code c c' s) (ht : t ∈ s.inPlace) : w.Code c c' t :=
  ⟨h.toContexts, h.own.imp_left fun hs => hs.part ht⟩

theorem Code.aligned_of_binds {x : Ident × Bool} (h : w.Code c c' s) (hx : x ∈ s.binds) :
    w.Aligned c c' := by
  refine ⟨h.toContexts, h.own.resolve_left fun hs => ?_⟩
  rw [hs.binds] at hx
  cases hx

theorem Code.aligned_of_isModule (h : w.Code c c' s) (hs : s.isModule = true) :
    w.Aligned c c' := by
  refine ⟨h.toContexts, h.own.resolve_left fun hstill => ?_⟩
  rw [hstill.isModule] at hs
  cases hs

theorem Contexts.variantHere (h : w.Contexts c c') (params : List Ident) (body : Expr) :
    w.Variants (variantHere c params body) (variantHere c' params body) :=
  ⟨rfl, rfl, h.module, h.chain⟩

/-- The context of the statements of a source, whose frame stands in its place. -/
theorem aligned_top (h : w.Machines m n) {s s' : Site} (hs : w.Sites s s') :
    w.Aligned (top s [preludeFrame, builtinsFrame]) (top s' [preludeFrame, builtinsFrame]) := by
  have hground : ∀ i < 3, w.Places i i := fun i hi => (places_start.mpr ⟨rfl, hi⟩).later h.ground
  have hprelude := hground preludeFrame (by decide)
  have hbuiltins := hground builtinsFrame (by decide)
  exact ⟨⟨hs, .shared hs.globals (.shared hprelude (.shared hbuiltins .nil)), rfl⟩, hs.globals⟩

/-- The frames of two calls, inside the scopes of the variants that are called. -/
theorem call_agrees {s s' : Site} {v v' : Variant} {f f' : Frame} (hs : w.Sites s s')
    (hv : w.Variants v v') (hf : w.like.Frames f f') :
    worlds.Agree w Aligned (Context.enter ⟨s, v.scope, v.module⟩ f)
      (Context.enter ⟨s', v'.scope, v'.module⟩ f') :=
  enter_agrees hs hv.chain hv.module (frames_of_like hf)

/-- Two runs of the same code. -/
def simulation (h : Host) : Simulation h where
  toWorlds := worlds
  like := like
  Sites := Sites
  Code := Code
  Decl w c s c' s' := w.Aligned c c' ∧ s = s'
  Apart _ _ _ _ _ := False
  apart_work := False.elim
  Body w c _ ss o c' ss' o' := w.Aligned c c' ∧ ss = ss' ∧ w.Opens o o'
  Seen _ := True
  Defines _ _ := True
  Varies := True
  Declares := True
  Seeks _ := True
  closure_later hl hf := Closures.later hl hf
  module_later _ hm := hm
  sites_later hl hs := Sites.later hl hs
  code_later hl hc := Code.later hl hc
  decl_later hl hd := ⟨hd.1.later hl, hd.2⟩
  body_later hl hb := ⟨hb.1.later hl, hb.2.1, hb.2.2.later hl⟩
  site_source hs := hs.source
  code_site hc := hc.site
  code_part hc ht := hc.part ht
  enter := by
    intro w c c' s f f' hc _ hf
    have henter := enter_agrees hc.site hc.chain hc.module (frames_of_like hf)
    exact henter.imp fun _ _ _ _ hd t _ => hd.code t
  arities hf := Closures.arities hf
  variant := by
    intro w a b hf k
    have hvariant := Closures.variant? hf k
    generalize a.variant? k = v, b.variant? k = v' at hvariant
    cases hvariant with
    | none => exact .none
    | @some v v' hv =>
      refine .some ⟨hv.params, hv.body, fun hs hg => ?_⟩
      exact (call_agrees hs hv hg).imp fun _ _ _ _ hd => hd.code _
  name hc := (resolve_agrees hc.toContexts _).imp fun _ _ _ _ hr => hr.2
  dotted hc := dotted_agrees hc.toContexts _
  define _ hc hb hv := define_agrees (hc.aligned_of_binds hb) _ hv _
  lambda hc := newClosure_agrees _ (.cons (hc.toContexts.variantHere _ _) .nil)
  vary _ hc := vary_agrees hc.toContexts _ (hc.toContexts.variantHere _ _)
  module := by
    intro w c c' l isPublic n body _ hc
    have haligned := hc.aligned_of_isModule rfl
    exact (openModule_agrees haligned isPublic n).imp fun _ _ _ hl ho =>
      ⟨haligned.later hl, rfl, ho⟩
  write t := Worlds.agree_modify fun _ _ hm => hm.write t
  readLine := by
    intro w m n hm
    unfold readLine
    rw [hm.input]
    exact Worlds.ends_ok (hm.setInput _) (.plain (Value.isPlain_line _ _))
  declared := by
    rintro w c s c' s' ⟨hc, rfl⟩
    exact .same (hc.code s)
  body_module hb := ⟨hb.2.2.id, hb.2.2.path⟩
  body_members := by
    rintro w c n ss o c' ss' o' ⟨-, rfl, ho⟩
    rw [ho.id]
    refine (declareMembers_agrees o'.id ss).imp fun _ _ _ hl _ => ?_
    exact List.forall₂_same.mpr fun _ _ => ⟨ho.inner.later hl, rfl⟩
  body_restore := by
    rintro w c n ss o c' ss' o' m m' ⟨hc, -, ho⟩ hm
    rw [ho.path]
    exact ⟨w, List.prefix_rfl, restore_machines (hm.removeModule o'.path) hc n ho.old⟩
  loaded p _ hm := hm.loaded p
  begin_loading := by
    intro w p
    exact Worlds.agree_change fun m n hm =>
      Machine.beginLoading_rel hm.loading p fun paths => hm.setLoading paths
  abort_loading := by
    intro w m n p hm
    refine ⟨w, List.prefix_rfl, ?_⟩
    unfold Machine.abortLoading
    rw [hm.loading]
    exact hm.setLoading _
  finish_loading := by
    intro w e e' p he
    exact Worlds.agree_change fun m n hm =>
      Machine.finishLoading_rel hm.loading p fun paths => (hm.setLoaded p he).setLoading paths
  file := by
    intro w p t program _ _ _ m n hm
    have hground := hm.ground
    have hends := openFile_agrees p m n hm
    generalize openFile p m = r, openFile p n = r' at hends
    cases hends with
    | ok hl hk hs => exact .ok hl hk ⟨hs, fun st _ => ⟨aligned_top hk hs, rfl⟩⟩
    | error hl hk => exact .error hl hk
  exports := by
    intro w s s' m n hs hm
    rw [hs.exports]
    exact hm.exported s'.exports

/-- Whatever depth it is given, a task ends alike in both runs. -/
theorem follows (h : Host) (depth : Nat) : (simulation h).Follows (run h depth) (run h depth) :=
  Simulation.run_follows (S := simulation h) (fun _ _ => ⟨trivial, .inl trivial, .inl trivial⟩)
    (fun _ => trivial) (fun _ _ _ _ _ _ _ ha => False.elim ha) depth

/-! ## Where two runs begin -/

theorem matches_start {e : Extent} {v : Value} (hv : v.Carries e.HasClosure) :
    (start e.frames).like.Matches v v := by
  have hclosure : ∀ {a b}, (Likeness.only e.HasClosure).closure a b →
      (start e.frames).like.closure a b := by
    rintro a _ ⟨rfl, ha⟩
    have hself : (start e.frames).Closures a a :=
      ⟨rfl, rfl, List.forall₂_same.mpr fun v hv => ⟨rfl, rfl, rfl, chain_start (ha.scope v hv)⟩⟩
    exact hself
  have hmodule : ∀ {i p j q}, (Likeness.only e.HasClosure).module i p j q →
      (start e.frames).like.module i p j q := id
  exact Likeness.Matches.mono hclosure hmodule hv

/-- A machine corresponds to itself. -/
theorem machines_start (hm : m.Ranged) : (start m.frames.size).Machines m m := by
  have hself : ∀ {v : Value}, v.Carries m.extent.HasClosure →
      (start m.frames.size).like.Matches v v := matches_start
  have hexports : ∀ {e : Exports}, (∀ {n v}, (n, v) ∈ e → v.Carries m.extent.HasClosure) →
      (start m.frames.size).like.Exported e e :=
    fun he => Bindings.related_refl fun _ hp => hself (he hp)
  exact {
    records := rfl
    record := fun i =>
      ⟨⟨rfl, Likeness.contents_refl fun hv => hself (hm.holds.member .isPublic hv),
        Likeness.contents_refl fun hv => hself (hm.holds.member .isPrivate hv)⟩, rfl⟩
    registry := rfl
    exports := rfl
    exported := fun i => hexports hm.holds.exporting.exports
    loaded := fun p => by
      cases hp : m.loaded? p with
      | none => exact .none
      | some e =>
        obtain ⟨⟨q, d⟩, hfind, rfl⟩ := Option.map_eq_some_iff.mp hp
        exact .some (hexports (hm.holds.exporting.loaded (List.mem_of_find?_eq_some hfind)))
    loading := rfl
    functions := rfl
    input := rfl
    written := rfl
    ground := start_prefix hm.base
    size := length_start _
    made := fun hp => (places_start.mp hp).2
    alone := fun hp hp' => (places_start.mp hp).1.symm.trans (places_start.mp hp').1
    frame := fun hp => by
      obtain ⟨rfl, -⟩ := places_start.mp hp
      exact ⟨rfl, rfl, Likeness.contents_refl fun hv => hself (hm.holds.slot hv)⟩
    aside := fun hj => absurd hj not_aside_start }

theorem contexts_start (hc : m.extent.HasContext c) : (start m.frames.size).Contexts c c :=
  ⟨⟨rfl, places_start.mpr ⟨rfl, hc.site.globals⟩, rfl⟩, chain_start hc.scope, rfl⟩

/-- Both runs end with values that correspond or both with failures that do, on machines that
correspond. The frames of the machine on which both began are their own counterparts. -/
inductive EndAlike (R : Failure → Failure → Prop) (m : Machine) : Outcome → Outcome → Prop where
  | ok {w : Layout} {v v' : Value} {k k' : Machine} : start m.frames.size <+: w →
      w.Machines k k' → w.Values v v' → EndAlike R m (.ok v k) (.ok v' k')
  | error {w : Layout} {e e' : Failure} {k k' : Machine} : start m.frames.size <+: w →
      w.Machines k k' → R e e' → EndAlike R m (.error e k) (.error e' k')

theorem endAlike_of_ends {R : Failure → Failure → Prop} {r r' : Outcome} (hR : ∀ e, R e e)
    (hl : start m.frames.size <+: w) (h : worlds.Ends w Values r r') : EndAlike R m r r' := by
  cases h with
  | ok hl' hk hv => exact .ok (hl.trans hl') hk hv
  | error hl' hk => exact .error (hl.trans hl') hk (hR _)

/-! ## Enough depth -/

/-- The run has come to a task at depth zero. -/
def TooDeep (r : Outcome) : Prop := ∃ k, r = .error .tooDeep k

theorem eq_of_not_tooDeep {x y : Eval Value} (hxy : Limits.Cut (· = .tooDeep) x y)
    (hx : ¬ TooDeep (x m)) : x m = y m := by
  rcases hxy m with he | ⟨e, k, rfl, hk⟩
  · exact he
  · exact absurd ⟨k, hk⟩ hx

/-- Where no levels lie between tasks, a native does what it does at once. -/
theorem run_native (h : Host) (depth : Nat) (s : Site) (native : Native) (args : List Value) :
    run h.flat (depth + 2) (.apply s (.native native) args) =
      performNative (run h.flat (depth + 1)) s native args := by
  change ((run h.flat (depth + 1)).ask (.native native (Value.shapes args)) >>= fun _ =>
    performNative (run h.flat (depth + 1)) s native args) = _
  rw [ask_run_succ]
  rfl

/-- Unless the depth is too small for either, both tasks end alike. -/
def SameEnds (h : Host) (R : Failure → Failure → Prop) (m : Machine) (t t' : Task) : Prop :=
  ∀ d d', ¬ TooDeep (run h d t m) → ¬ TooDeep (run h d' t' m) →
    EndAlike R m (run h d t m) (run h d' t' m)

theorem sameEnds_of_depths {h : Host} {R : Failure → Failure → Prop} {t t' : Task} {least : Nat}
    (hall : ∀ depth, EndAlike R m (run h.flat (depth + least) t m) (run h.flat (depth + least) t' m)) :
    SameEnds h R m t t' := by
  intro d d' hd hd'
  have hle : d ≤ d + d' + least := by omega
  have hle' : d' ≤ d + d' + least := by omega
  rw [eq_of_not_tooDeep (Limits.run_cut_flat h hle t) hd,
    eq_of_not_tooDeep (Limits.run_cut_flat h hle' t') hd']
  exact hall (d + d')

/-! ## A machine with a list -/

/-- Two texts in a list, bound to `xs` in a frame of its own. -/
def words : Value := .list [.text "true", .text "false"]

def wordsFrame : Frame := { name := "block", bindings := [("xs", .value words)] }

def wordsMachine : Machine := { (Session.blank "").pushFrame wordsFrame with exports := #[[]] }

/-- Where code sees the list. -/
def beside : Context :=
  ⟨⟨"<input>", globalFrame, 0⟩, ⟨3, [globalFrame, preludeFrame, builtinsFrame]⟩, none⟩

theorem ranged_wordsMachine : wordsMachine.Ranged := by
  have hframe := (Conduct.ranged_blank "").pushFrame (f := wordsFrame) (fun _ hr => by cases hr)
    fun hv => by
      cases List.mem_singleton.mp hv
      exact Likeness.Matches.list (.cons (.plain rfl) (.cons (.plain rfl) .nil))
  exact hframe.1.pushExports.1

theorem hasContext_beside : wordsMachine.extent.HasContext beside :=
  ⟨by decide, by decide, by decide⟩

theorem not_tooDeep_of_endsWith {test : Value → Bool} {r : Outcome}
    (h : Session.endsWith test r = true) : ¬ TooDeep r := by
  rintro ⟨k, rfl⟩
  cases h

def nowhere : Location := ⟨[], 0, 0⟩

end Layout

end ModuleScript
