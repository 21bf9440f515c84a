import ModuleScript.Proofs.Imports.Catalog
import ModuleScript.Proofs.Loading
import ModuleScript.Proofs.Modules.Rollback
import ModuleScript.Proofs.Reading.Orderly
import ModuleScript.Proofs.Simulation.Sessions

/-!
# Exports agree with the frame of their file

What a file exports are the names of the public bindings and of the modules at its top. Each is
exported with the value that it has in the file's own frame, in the end and ever after, as long as
nobody takes an exported name in this frame without exporting it: a binding that is not public, an
import, or code that gives an exported function another variant on behalf of another source.
-/

set_option autoImplicit false

namespace ModuleScript

open Eval Session

namespace Catalog

variable {α : Type} {K : Catalog} {h : Host} {m k : Machine} {w : Unit} {c : Context} {s : Stmt}

/-! ## Runs beside themselves -/

abbrev worlds (K : Catalog) : Worlds where
  World := Unit
  Later _ _ := True
  later_refl _ := trivial
  later_trans _ _ := trivial
  Machines _ m n := m = n ∧ K.Agrees m

theorem ends_self {P : Unit → α → α → Prop} {r : EStateM.Result Failure Machine α}
    (hm : K.Agrees (endOf r)) (hP : ∀ a k, r = .ok a k → P w a a) : K.worlds.Ends w P r r := by
  cases r with
  | ok a k =>
    have hk : K.worlds.Machines w k k := ⟨rfl, hm⟩
    exact .ok trivial hk (hP a k rfl)
  | error e k =>
    have hk : K.worlds.Machines w k k := ⟨rfl, hm⟩
    exact .error trivial hk

theorem Keeps.agree {P : Unit → α → α → Prop} {x : Eval α} (hx : K.Keeps x)
    (hP : ∀ m a k, K.Agrees m → x m = .ok a k → P w a a) : K.worlds.Agree w P x x := by
  rintro m _ ⟨rfl, hm⟩
  exact ends_self (hx m hm) fun a k => hP m a k hm

theorem frames_refl {f f' : Frame} (hf : Likeness.identity.Frames f f') : f = f' :=
  hf.eq Likeness.identity_eq

theorem enter_agree {P : Unit → Context → Context → Prop} (c : Context) (f : Frame)
    (hP : ∀ id, id ≠ K.frame → P w { c with scope := c.scope.push id } { c with scope := c.scope.push id }) :
    K.worlds.Agree w P (c.enter f) (c.enter f) := by
  refine Keeps.agree (fun m hm => hm.pushFrame f) ?_
  rintro m a k hm ⟨⟩
  exact hP _ (Nat.ne_of_gt hm.frame)

/-- The statement takes only names in the frame that it may take there. -/
def Defines (K : Catalog) (c : Context) (s : Stmt) : Prop :=
  K.strict → c.scope.frame = K.frame → ∀ n isPublic, (n, isPublic) ∈ s.binds → n ∈ K.names →
    K.own = some c.site.exports ∧ isPublic = true

theorem mem_exported {n : Ident} (hn : (n, true) ∈ s.binds) : n ∈ s.exported := by
  cases s with
  | expr e => cases e <;> simp [Stmt.binds] at hn
  | publicBinding l x e =>
    rw [Stmt.binds, List.mem_singleton] at hn
    cases hn
    exact .head _
  | imports l ns path => simp [Stmt.binds] at hn
  | _ => cases hn

def simulation (K : Catalog) (h : Host) : Simulation h where
  toWorlds := K.worlds
  like _ := .identity
  Sites _ s s' := s = s' ∧ K.Serves s
  Code _ c c' s := c = c' ∧ K.Runs c s
  Decl _ c s c' s' := c = c' ∧ s = s' ∧ K.Runs c s
  Apart _ _ _ _ _ := False
  apart_work := False.elim
  Body _ c n ss o c' ss' o' := c = c' ∧ ss = ss' ∧ o = o' ∧ K.Opens c n ss o
  Seen _ := True
  Defines := K.Defines
  Varies := False
  Declares := False
  Seeks _ := True
  closure_later _ h := h
  module_later _ h := h
  sites_later _ h := h
  code_later _ h := h
  decl_later _ h := h
  body_later _ h := h
  site_source hs := congrArg Site.source hs.1
  code_site hc := ⟨congrArg Context.site hc.1, serves_of_runs hc.2⟩
  code_part hc ht := ⟨hc.1, runs_part hc.2 (Stmt.mem_parts_of_inPlace ht)⟩
  enter := by
    rintro w c _ s f f' ⟨rfl, hc⟩ - hf
    obtain rfl := frames_refl hf
    have hs := serves_of_runs hc
    exact enter_agree c f fun id hid t _ => ⟨rfl, runs_elsewhere hs hid⟩
  arities := by
    rintro w a _ rfl
    rfl
  variant := by
    rintro w a _ rfl n
    cases a.variant? n with
    | none => exact .none
    | some v =>
      refine .some ⟨rfl, rfl, ?_⟩
      rintro s _ f f' ⟨rfl, hs⟩ hf
      obtain rfl := frames_refl hf
      exact enter_agree ⟨s, v.scope, v.module⟩ f fun id hid => ⟨rfl, runs_elsewhere hs hid⟩
  name := by
    rintro w c _ l n ⟨rfl, -⟩
    exact (keeps_reads (reads_resolve c n)).agree fun _ _ _ _ _ => Likeness.identity_refl _
  dotted := by
    rintro w c _ l ns ⟨rfl, -⟩
    exact (keeps_reads (reads_dotted c ns)).agree fun _ _ _ _ _ => Likeness.identity_refl _
  define := by
    rintro w c _ s n isPublic v v' hd ⟨rfl, hc⟩ hn hv
    obtain rfl := Likeness.identity_eq hv
    refine Keeps.agree (fun m hm => ?_) fun _ _ _ _ _ => trivial
    refine agrees_define hm (serves_of_runs hc) (fun hown hframe hpublic => ?_)
      (fun hstrict hframe => hd hstrict hframe n isPublic hn) rfl
    rw [hpublic] at hn
    exact ((hc hown).2 hframe).2 n (mem_exported hn)
  lambda := by
    rintro w c _ l n ps body ⟨rfl, -⟩
    exact Keeps.agree (fun m hm => hm.of_same rfl rfl) fun _ _ _ _ _ => Likeness.identity_refl _
  vary hv := hv.elim
  module hd := hd.elim
  write t := Keeps.agree (fun m hm => hm.of_same rfl rfl) fun _ _ _ _ _ => trivial
  readLine := Keeps.agree (fun m hm => hm.of_same rfl rfl) fun _ _ _ _ _ => Likeness.identity_refl _
  declared := by
    rintro w c s _ _ ⟨rfl, rfl, hc⟩
    exact .same ⟨rfl, hc⟩
  body_module := by
    rintro w c n ss o _ _ _ ⟨rfl, rfl, rfl, -⟩
    exact ⟨rfl, rfl⟩
  body_members := by
    rintro w c n ss o _ _ _ ⟨rfl, rfl, rfl, ho⟩
    refine (keeps_declareMembers o.id ss).agree fun _ _ _ _ _ => ?_
    exact List.forall₂_same.mpr fun s hs => ⟨rfl, rfl, ho.body s hs⟩
  body_restore := by
    rintro w c n ss o _ _ _ m _ ⟨rfl, rfl, rfl, ho⟩ ⟨rfl, hm⟩
    have hremoved : K.Agrees (m.removeModule o.path) := hm.of_same rfl rfl
    exact ⟨w, trivial, rfl, agrees_restore hremoved ho.restorable⟩
  loaded := by
    rintro w m _ p - ⟨rfl, -⟩
    cases m.loaded? p with
    | none => exact .none
    | some e => exact .some (Likeness.exported_identity e)
  begin_loading p := by
    refine Keeps.agree (keeps_change fun m k hk hm => ?_) fun _ _ _ _ _ => trivial
    obtain ⟨-, rfl⟩ := Machine.beginLoading_eq_ok hk
    exact hm.of_same rfl rfl
  abort_loading := by
    rintro w m _ p ⟨rfl, hm⟩
    exact ⟨w, trivial, rfl, hm.of_same rfl rfl⟩
  finish_loading := by
    intro w e e' p he
    obtain rfl : e = e' := Bindings.Related.eq he fun _ _ _ => Likeness.identity_eq
    refine Keeps.agree (keeps_change fun m k hk hm => ?_) fun _ _ _ _ _ => trivial
    obtain ⟨-, rfl⟩ := Machine.finishLoading_eq_ok hk
    exact hm.of_same rfl rfl
  file := by
    intro w p t program _ _ _
    refine Keeps.agree (fun m hm => (hm.pushFrame _).pushExports) ?_
    rintro m a k hm ⟨⟩
    have hserves : K.Serves ⟨p.text, m.frames.size, m.exports.size⟩ :=
      fun hown => absurd rfl (Nat.ne_of_lt (hm.table _ hown))
    exact ⟨⟨rfl, hserves⟩, fun st _ => ⟨rfl, rfl, runs_elsewhere hserves (Nat.ne_of_gt hm.frame)⟩⟩
  exports := by
    rintro w s _ m _ ⟨rfl, -⟩ ⟨rfl, -⟩
    exact Likeness.exported_identity _

/-! ## Runs that spare the exported names -/

theorem mem_takes {n : Ident} {isPublic : Bool} (hn : (n, isPublic) ∈ s.binds) :
    (n, isPublic) ∈ s.takes := by
  cases s with
  | module l isPublic x body => cases hn
  | _ => exact hn

theorem deeds {self self' : Step} (hf : (K.simulation h).Follows self self') (hc : K.Runs c s)
    (hm : K.Agrees m) (hspares : K.Spares (.eval c s) m) :
    (K.simulation h).Deeds h self self' w c c s m m where
  defines hstrict hframe n isPublic hn hmem :=
    hspares.takes hstrict rfl hframe (mem_takes hn) hmem
  vary := by
    rintro l x l' ps body rfl
    have hvary := agrees_vary (v := variantHere c ps body) hm (serves_of_runs hc)
      fun hstrict r u he ho hr hx => hspares.varies hstrict rfl he ho hr hx
    exact ends_self hvary fun _ _ _ => Likeness.identity_refl _
  opens := by
    rintro l isPublic x body rfl
    obtain ⟨hopen, hbody⟩ := agrees_openModule hm hc fun hstrict hframe hx =>
      (hspares.takes hstrict rfl hframe (.head _) hx).1
    exact ends_self hopen fun o k ho => ⟨rfl, rfl, rfl, hbody o k ho⟩
  loads := by
    rintro l names path rfl
    exact Simulation.load_ends (S := K.simulation h) hf path c.site.source ⟨rfl, hm⟩
      fun _ _ => trivial

theorem spares_of_not_node (K : Catalog) {t : Task} (ht : ∀ c s, t ≠ .eval c s) (m : Machine) :
    K.Spares t m :=
  ⟨fun _ he => absurd he (ht _ _), fun _ he => absurd he (ht _ _)⟩

theorem checked_of_not_node (K : Catalog) (h : Host) (depth : Nat) {t : Task}
    (ht : ∀ c s, t ≠ .eval c s) :
    Conduct.checked h K.Spares (depth + 1) t = step h (Conduct.checked h K.Spares depth) t :=
  funext fun m => watched_of_check (K.spares_of_not_node ht m) _ depth

theorem checked_follows (K : Catalog) (h : Host) (depth : Nat) :
    (K.simulation h).Follows (Conduct.checked h K.Spares depth)
      (Conduct.checked h K.Spares depth) := by
  induction depth with
  | zero => exact Actions.follows_tooDeep _ _ (fun _ => rfl) fun _ => rfl
  | succ depth ih =>
    have hcode : ∀ {w c s}, K.Runs c s → K.worlds.Agree w (fun _ => Likeness.identity.Matches)
        (Conduct.checked h K.Spares (depth + 1) (.eval c s))
        (Conduct.checked h K.Spares (depth + 1) (.eval c s)) := by
      rintro w c s hc m _ ⟨rfl, hm⟩
      by_cases hspares : K.Spares (.eval c s) m
      · rw [Conduct.checked, watched_of_check hspares]
        exact Actions.code_ends (S := (K.simulation h).toActions) ih ⟨rfl, hc⟩
          (deeds (ih.below h _) hc hm hspares) ⟨rfl, hm⟩
      · rw [Conduct.checked, watched_of_not_check hspares]
        exact ends_self hm fun _ _ hr => by cases hr
    have hattends : (K.simulation h).Attends (Conduct.checked h K.Spares (depth + 1))
        (Conduct.checked h K.Spares (depth + 1)) := by
      refine ⟨?_, ?_, ?_, ?_⟩
      · rintro w c _ s ⟨rfl, hc⟩
        exact hcode hc
      · rintro w c s _ _ ⟨rfl, rfl, hc⟩
        exact (hcode hc).imp fun _ _ _ _ hv _ => hv
      · intro w s s' f f' args args' hs hf hargs
        rw [checked_of_not_node K h depth fun _ _ => Task.noConfusion,
          checked_of_not_node K h depth fun _ _ => Task.noConfusion]
        exact Actions.apply_step_agrees ih hs hf hargs
      · intro w d
        rw [checked_of_not_node K h depth fun _ _ => Task.noConfusion]
        exact Actions.ask_agrees h _ _ d
    refine hattends.follows (fun t _ => ?_) ih
    rw [checked_of_not_node K h depth fun _ _ => Task.noConfusion]
    exact ⟨rfl, rfl⟩

/-- A computation whose tasks all spare the exported names leaves the exports and the frame in step. -/
theorem agrees_of_throughout {depth : Nat} {x : Step → Eval α} {P : Unit → α → α → Prop}
    (hx : ∀ self, (K.simulation h).Follows self self → K.worlds.Agree ⟨⟩ P (x self) (x self))
    (hm : K.Agrees m) (hall : Throughout h depth K.Spares x m) :
    K.Agrees (endOf (x (run h depth) m)) := by
  obtain ⟨_, -, -, hk⟩ := (hx _ (checked_follows K h depth) m m ⟨rfl, hm⟩).machines
  rwa [show x (Conduct.checked h K.Spares depth) m = x (run h depth) m from hall _] at hk

/-- What a source with these names may export while it runs. -/
def ofSite (site : Site) (names : List Ident) (strict : Prop) : Catalog :=
  ⟨some site.exports, [], site.globals, names, strict⟩

/-- What has been exported in the end. -/
def ofExports (e : Exports) (g : FrameId) : Catalog := ⟨none, e, g, e.names, True⟩

variable {site : Site} {outer : List FrameId} {names : List Ident} {strict : Prop}
  {program : Program} {depth : Nat} {o : Option Work}

theorem Agrees.mono {names' : List Ident} (hm : (ofSite site names strict).Agrees m)
    (hn : ∀ n ∈ names, n ∈ names') : (ofSite site names' strict).Agrees m :=
  ⟨hm.frame, hm.outside, hm.table, fun n v hv =>
    ⟨hn n (hm.exported n v hv).1, (hm.exported n v hv).2⟩⟩

/-- A statement at the top of a source exports at most the name that it declares. -/
theorem top_agrees (hs : Orderly s) (hm : (ofSite site names strict).Agrees m)
    (hall : Throughout h depth (ofSite site (names ++ s.exported) strict).Spares
      (fun self => self.under h o (.eval (top site outer) s)) m) :
    (ofSite site (names ++ s.exported) strict).Agrees
      (endOf ((run h depth).under h o (.eval (top site outer) s) m)) := by
  have hruns : (ofSite site (names ++ s.exported) strict).Runs (top site outer) s :=
    fun _ => ⟨rfl, fun _ => ⟨hs, fun n hn => List.mem_append_right names hn⟩⟩
  exact agrees_of_throughout (fun self hf => (hf.under h o).code ⟨rfl, hruns⟩)
    (hm.mono fun n hn => List.mem_append_left _ hn) hall

/-- Every statement of a program at the top of a source leads only to tasks that spare the names
exported until it has come to its end. -/
def TopSpares (h : Host) (depth : Nat) (o : Option Work) (site : Site) (outer : List FrameId)
    (names : List Ident) (strict : Prop) (program : Program) (u : Value) (m : Machine) : Prop :=
  ∀ passed s rest v k, program = passed ++ s :: rest →
    passed.foldlM (fun _ s => (run h depth).under h o (.eval (top site outer) s)) u m = .ok v k →
    Throughout h depth (ofSite site (names ++ (passed ++ [s]).flatMap Stmt.exported) strict).Spares
      (fun self => self.under h o (.eval (top site outer) s)) k

theorem program_agrees (hp : ∀ s ∈ program, Orderly s) {u v : Value}
    (hm : (ofSite site names strict).Agrees m)
    (hall : TopSpares h depth o site outer names strict program u m)
    (hr : program.foldlM (fun _ s => (run h depth).under h o (.eval (top site outer) s)) u m =
      .ok v k) :
    (ofSite site (names ++ program.flatMap Stmt.exported) strict).Agrees k := by
  induction program generalizing names m u with
  | nil =>
    cases hr
    rwa [List.flatMap_nil, List.append_nil]
  | cons s rest ih =>
    rw [List.foldlM_cons] at hr
    obtain ⟨v₁, m₁, hs, hrest⟩ := bind_eq_ok hr
    have hfirst := hall [] s rest u m rfl rfl
    rw [List.nil_append, List.flatMap_singleton] at hfirst
    have hm₁ := top_agrees (hp s (.head _)) hm hfirst
    rw [hs] at hm₁
    rw [List.flatMap_cons, ← List.append_assoc]
    refine ih (fun t ht => hp t (.tail _ ht)) hm₁ (fun passed t later w k' he hk => ?_) hrest
    have hrun : (s :: passed).foldlM
        (fun _ s => (run h depth).under h o (.eval (top site outer) s)) u m = .ok w k' := by
      rw [List.foldlM_cons, bind_of_ok hs]
      exact hk
    have hnext := hall (s :: passed) t later w k' (by rw [he]; rfl) hrun
    rwa [List.cons_append, List.flatMap_cons, ← List.append_assoc] at hnext

end Catalog

/-! ## Programs -/

namespace Machine

/-- A source is about to be run: it has not exported anything yet, and its frame belongs to no
module. -/
structure Begins (site : Site) (m : Machine) : Prop where
  frame : site.globals < m.frames.size
  outside : (m.frame site.globals).record = none
  table : site.exports < m.exports.size
  empty : m.exportsOf site.exports = []

/-- The frame gives each exported name the value that is exported. -/
structure Gives (g : FrameId) (e : Exports) (m : Machine) : Prop where
  frame : g < m.frames.size
  outside : (m.frame g).record = none
  bound : ∀ n v, e.get? n = some v → (m.frame g).bindings.get? n = some (.value v)

theorem gives_iff {m : Machine} {g : FrameId} {e : Exports} :
    m.Gives g e ↔ (Catalog.ofExports e g).Agrees m := by
  constructor
  · intro hm
    refine ⟨hm.frame, hm.outside, nofun, fun n v hv => ⟨?_, fun _ => hm.bound n v hv⟩⟩
    refine (Bindings.mem_names_iff e n).mpr ?_
    rw [Bindings.has_eq_isSome, show e.get? n = some v from hv]
    rfl
  · intro hm
    exact ⟨hm.frame, hm.outside, fun n v hv => (hm.exported n v hv).2 trivial⟩

end Machine

namespace Catalog

variable {h : Host} {depth : Nat} {site : Site} {outer : List FrameId} {names : List Ident}
  {program : Program} {m k : Machine} {v : Value} {o : Option Work}

theorem program_publishes (hp : ∀ s ∈ program, Orderly s) {u : Value}
    (hm : m.Publishes site.exports site.globals names)
    (hr : program.foldlM (fun _ s => (run h depth).under h o (.eval (top site outer) s)) u m =
      .ok v k) :
    k.Publishes site.exports site.globals (names ++ program.flatMap Stmt.exported) := by
  induction program generalizing names m u with
  | nil =>
    cases hr
    rwa [List.flatMap_nil, List.append_nil]
  | cons s rest ih =>
    rw [List.foldlM_cons] at hr
    obtain ⟨v₁, m₁, hs, hrest⟩ := bind_eq_ok hr
    obtain ⟨left, hleft⟩ := under_run h depth o (.eval (top site outer) s)
    rw [hleft] at hs
    have hm₁ := Exporting.stmt hm (hp s (.head _)) hs
    have hend := ih (fun t ht => hp t (.tail _ ht)) hm₁ hrest
    refine hend.mono fun n hn => ?_
    rw [List.flatMap_cons] at hn
    simp only [List.mem_append] at hn ⊢
    tauto

/-- A source exports the names of the public bindings and of the modules at its top, and in the end
its frame gives them the values that it exports. -/
theorem program_exports (hp : ∀ s ∈ program, Orderly s) (hm : m.Begins site)
    (hr : ((run h depth).under h o).stmts (top site outer) program m = .ok v k) :
    (∀ n, (k.exportsOf site.exports).has n = true ↔ n ∈ program.flatMap Stmt.exported) ∧
      (TopSpares h depth o site outer [] True program .unit m →
        k.Gives site.globals (k.exportsOf site.exports)) := by
  have hbegins : ∀ strict, (ofSite site [] strict).Agrees m := by
    refine fun strict => ⟨hm.frame, hm.outside, fun x hx => ?_, fun n w hw => ?_⟩
    · exact Option.some.inj hx ▸ hm.table
    · rw [show (ofSite site [] strict).exports m = [] from hm.empty] at hw
      cases hw
  refine ⟨fun n => ⟨fun hn => ?_, fun hn => ?_⟩, fun hall => ?_⟩
  · -- nothing is asked of tasks where only names count
    have hend := program_agrees hp (hbegins False)
      (fun _ _ _ _ _ _ _ => throughout_of_always
        (fun t m => ⟨fun hf => hf.elim, fun hf => hf.elim⟩) _ _ _) hr
    rw [Bindings.has_eq_isSome] at hn
    obtain ⟨w, hw⟩ := Option.isSome_iff_exists.mp hn
    exact (hend.exported n w hw).1
  · have hpub : m.Publishes site.exports site.globals [] := ⟨hm.frame, hm.table, hm.outside, nofun⟩
    exact (program_publishes hp hpub hr).has n hn
  · have hend := program_agrees hp (hbegins True) hall hr
    exact ⟨hend.frame, hend.outside, fun n w hw => (hend.exported n w hw).2 trivial⟩

/-! ## A constant by itself -/

section Constants

variable {l l' : Location} {n : Ident} {q : Constant}

theorem spares_constant (K : Catalog) (c : Context) (m : Machine) :
    K.Spares (.eval c (.expr (.constant l q))) m := by
  refine ⟨?_, ?_⟩
  · rintro _ _ n isPublic - ⟨⟩ - hn
    cases hn
  · rintro _ _ _ _ _ _ _ _ - ht
    cases ht

theorem spares_publicBinding {strict : Prop} {e : Expr} (m : Machine) :
    (ofSite site names strict).Spares (.eval (top site outer) (.publicBinding l n e)) m := by
  refine ⟨?_, ?_⟩
  · rintro _ _ _ _ - ⟨⟩ - hn -
    cases List.mem_singleton.mp hn
    exact ⟨rfl, rfl⟩
  · rintro _ _ _ _ _ _ _ _ - ht
    cases ht

theorem step_publicBinding {self self' : Step} {c : Context} {e : Expr}
    (he : self.below h (.node .binding l) (.eval c (.expr e)) =
      self'.below h (.node .binding l) (.eval c (.expr e))) :
    step h self (.eval c (.publicBinding l n e)) = step h self' (.eval c (.publicBinding l n e)) := by
  change located h l (self.below h (.node .binding l) (.eval c (.expr e)) >>= _) =
    located h l (self'.below h (.node .binding l) (.eval c (.expr e)) >>= _)
  rw [he]

theorem watched_constant (K : Catalog) (alarm : Step) (depth : Nat) (c : Context) :
    watched h K.Spares alarm depth (.eval c (.expr (.constant l q))) =
      run h depth (.eval c (.expr (.constant l q))) := by
  cases depth with
  | zero => rfl
  | succ depth => exact funext fun m => watched_of_check (spares_constant K c m) alarm depth

/-- A program that only binds a constant takes no name otherwise. -/
theorem topSpares_constant {strict : Prop} (u : Value) (m : Machine) :
    TopSpares h depth none site outer names strict [.publicBinding l n (.constant l' q)] u m := by
  rintro passed s rest v k he -
  obtain ⟨rfl, rfl, rfl⟩ : passed = [] ∧ s = .publicBinding l n (.constant l' q) ∧ rest = [] := by
    cases passed with
    | nil =>
      cases he
      exact ⟨rfl, rfl, rfl⟩
    | cons t later => cases later <;> cases he
  cases depth with
  | zero => exact fun _ => rfl
  | succ depth =>
    refine (throughout_task_iff h depth _ _ k).mpr ⟨spares_publicBinding k, fun alarm => ?_⟩
    refine congrFun (step_publicBinding ?_) k
    rw [below_run, watched_below fun t m => spares_of_not_node _ (fun _ _ => Task.noConfusion) m]
    exact watched_constant _ alarm _ _

end Constants

/-! ## Files -/

/-- A file has been loaded that exports what is given here, and its frame gives the exported names
these values if nothing at its top has taken them otherwise. -/
structure Loaded (h : Host) (depth : Nat) (o : Option Work) (p : Path) (site : Site) (text : Text)
    (m k : Machine) (e : Exports) (program : Program) : Prop where
  read : h.read site.source text = .ok program
  loaded : k.loaded? p = some e
  names : ∀ n, e.has n = true ↔ n ∈ program.flatMap Stmt.exported
  values : TopSpares h depth o site [preludeFrame, builtinsFrame] [] True program .unit m →
    k.Gives site.globals e

theorem gives_of_same {k k' : Machine} {g : FrameId} {e : Exports} (hk : k.Gives g e)
    (hframes : k'.frames = k.frames) : k'.Gives g e := by
  have hframe : k'.frame g = k.frame g := by
    unfold Machine.frame
    rw [hframes]
  exact ⟨hframes ▸ hk.frame, hframe ▸ hk.outside, hframe ▸ hk.bound⟩

theorem finish_eq_ok {k k' : Machine} {p : Path} {e : Exports}
    (hf : k.finishLoading p e = .ok k') : k'.loaded? p = some e ∧ k'.frames = k.frames := by
  obtain ⟨-, rfl⟩ := Machine.finishLoading_eq_ok hf
  refine ⟨?_, rfl⟩
  exact (k.loaded?_setLoaded p p e).trans (if_pos rfl)

theorem opened_begins (m : Machine) (p : Path) : (m.opened p).Begins (m.siteFor p) where
  frame := by simp [Machine.opened, Machine.pushFrame]
  outside := by
    change ((m.pushFrame _).frame m.frames.size).record = none
    rw [Machine.frame_pushFrame_size]
  table := by simp [Machine.opened]
  empty := (Machine.exportsOf_push (m.pushFrame _) _).trans (if_pos rfl)

/-- A file that an import loads. -/
theorem load_loaded {relative importer : Text} {p : Path} {e : Exports} {w : Work}
    (hp : h.disk.resolveImport relative importer = .ok p) (hn : m.loaded? p = none)
    (hl : load h ((run h depth).below h w) relative importer m = .ok e k) :
    ∃ text program, h.disk.readText p = .ok text ∧
      Loaded h depth (some w) p (m.siteFor p) text ((m.begun p).opened p) k e program := by
  rw [load_resolved _ hp, hn] at hl
  dsimp only at hl
  split at hl
  · cases hl
  · cases hl
  · split at hl
    · cases hl
    · rename_i m₁ hbegin
      obtain ⟨-, rfl⟩ := Machine.beginLoading_eq_ok hbegin
      unfold loadEnd at hl
      cases hf : evaluateFile h ((run h depth).below h w) p (m.begun p) with
      | error f k' =>
        rw [hf] at hl
        cases hl
      | ok e' k' =>
        rw [hf] at hl
        obtain ⟨_, k'', hfinish, hend⟩ := bind_eq_ok hl
        cases hend
        obtain ⟨text, program, v, ht, hr, hs, rfl⟩ :=
          evaluateFile_eq_ok (steady_ask_below h depth w) hf
        obtain ⟨hloaded, hframes⟩ := finish_eq_ok (change_eq_ok hfinish)
        obtain ⟨hnames, hvalues⟩ :=
          program_exports (o := some w) (orderly_of_read hr) (opened_begins (m.begun p) p) hs
        exact ⟨text, program, ht, hr, hloaded, hnames,
          fun hall => gives_of_same (hvalues hall) hframes⟩

theorem guarded_eq_ok {α : Type} {x : Eval α} {a : α} (hx : guarded h x m = .ok a k) : x m = .ok a k := by
  unfold guarded at hx
  split at hx
  · cases hx
  · cases he : x m with
    | ok b k' =>
      rw [he] at hx
      exact hx
    | error e k' =>
      rw [he] at hx
      cases e <;> cases hx

/-- The machine on which a session evaluates a source. -/
abbrev withSite (m : Machine) : Machine := { m with exports := m.exports.push [] }

/-- A file that a session is given. -/
theorem perform_loaded {name : Text} {v : Value} (hframe : globalFrame < m.frames.size)
    (houtside : (m.frame globalFrame).record = none)
    (hc : (Command.file name).perform h h.runner m = .ok v k) :
    ∃ text program e, h.disk.readText (Path.ofText name) = .ok text ∧
      Loaded h h.depth none (h.disk.directory.resolve (Path.ofText name))
        ⟨(Path.ofText name).text, globalFrame, m.exports.size⟩ text
        (withSite (m.begun (h.disk.directory.resolve (Path.ofText name)))) k e program := by
  unfold Command.perform at hc
  dsimp only at hc
  generalize h.disk.directory.resolve (Path.ofText name) = p at hc ⊢
  obtain ⟨text, m₁, hlift, hc₁⟩ := bind_eq_ok hc
  obtain ⟨rfl, ht⟩ := lift_eq_ok hlift
  obtain ⟨_, m₂, hbegin, hc₂⟩ := bind_eq_ok hc₁
  obtain ⟨-, rfl⟩ := Machine.beginLoading_eq_ok (change_eq_ok hbegin)
  obtain ⟨⟨w, x⟩, m₃, hrun, hc₃⟩ := bind_eq_ok hc₂
  obtain ⟨program, m₄, hlift', hrun'⟩ := bind_eq_ok (mending_eq_ok hrun)
  obtain ⟨rfl, hr⟩ := lift_eq_ok hlift'
  obtain ⟨site, m₅, hsite, hstmts⟩ := bind_eq_ok (guarded_eq_ok hrun')
  cases hsite
  obtain ⟨w', m₆, hs, hpure⟩ := bind_eq_ok hstmts
  cases hpure
  obtain ⟨_, m₇, hfinish, hend⟩ := bind_eq_ok hc₃
  cases hend
  obtain ⟨hloaded, hframes⟩ := finish_eq_ok (change_eq_ok hfinish)
  have hbegins : (withSite (Machine.begun m₁ p)).Begins
      ⟨(Path.ofText name).text, globalFrame, m₁.exports.size⟩ :=
    ⟨hframe, houtside, by simp, (m₁.exportsOf_push _).trans (if_pos rfl)⟩
  obtain ⟨hnames, hvalues⟩ := program_exports (o := none) (orderly_of_read hr) hbegins hs
  exact ⟨text, program, _, ok_of_lift ht, hr, hloaded, hnames,
    fun hall => gives_of_same (hvalues hall) hframes⟩

/-! ## Afterwards -/

section Afterwards

variable {g : FrameId} {e : Exports} {t : Task} {command : Command}

theorem task_agree {K : Catalog} (hK : ∀ s, K.Serves s) (hruns : ∀ c s, K.Runs c s) {self : Step}
    (hf : (K.simulation h).Follows self self) (t : Task) :
    K.worlds.Agree ⟨⟩ (fun _ => Likeness.identity.Matches) (self t) (self t) := by
  have hall : ∀ n, K.worlds.Agree ⟨⟩ (fun _ => Likeness.identity.Matches) (self (t.after n))
      (self (t.after n)) := by
    induction t with
    | eval c s => exact fun n => (hf n).code ⟨rfl, hruns c s⟩
    | apply site f args =>
      exact fun n => (hf n).apply ⟨rfl, hK site⟩ (Likeness.identity_refl f)
        (List.forall₂_same.mpr fun v _ => Likeness.identity_refl v)
    | ask d => exact fun n => (hf n).ask d
    | wait t ih =>
      intro n
      rw [show (Task.wait t).after n = t.after (n + 1) from Task.after_after n 1 t]
      exact ih (n + 1)
  exact hall 0

theorem task_gives (hm : m.Gives g e)
    (hall : Throughout h depth (ofExports e g).Spares (fun self => self t) m) :
    (endOf (run h depth t m)).Gives g e := by
  exact Machine.gives_iff.mpr (agrees_of_throughout (P := fun _ => Likeness.identity.Matches)
    (fun self hf => task_agree (fun _ hown => by cases hown) (fun _ _ hown => by cases hown) hf t) (Machine.gives_iff.mp hm) hall)

theorem perform_gives (hm : m.Gives g e)
    (hall : Throughout h h.depth (ofExports e g).Spares (command.perform h) m) :
    (endOf (command.perform h h.runner m)).Gives g e := by
  refine Machine.gives_iff.mpr (agrees_of_throughout
    (P := fun _ => Likeness.identity.Matches) (fun self hf => ?_) (Machine.gives_iff.mp hm) hall)
  have hruns : ∀ w source program, ((ofExports e g).simulation h).Runs w source globalFrame
      [preludeFrame, builtinsFrame] program program := by
    intro w source program
    refine Keeps.agree (fun k hk => hk.pushExports) ?_
    rintro k a k' hk ⟨⟩
    exact ⟨⟨rfl, nofun⟩, trivial, List.forall₂_same.mpr fun st _ => ⟨rfl, rfl, nofun⟩⟩
  refine Simulation.perform_agrees (S := (ofExports e g).simulation h) hf ?_
  cases command with
  | source name text => exact fun program _ => hruns _ name program
  | file name => exact fun w text program _ _ _ => hruns w _ program

/-- No command of a session takes an exported name otherwise. -/
def AllSpare (h : Host) (input : Text) (history later : List Command) (e : Exports)
    (g : FrameId) : Prop :=
  ∀ before command rest, later = before ++ command :: rest →
    Throughout h h.depth (ofExports e g).Spares (command.perform h)
      (after h input (history ++ before)).machine

theorem after_gives {input : Text} {history later : List Command}
    (hm : (after h input history).machine.Gives g e) (hall : AllSpare h input history later e g) :
    (after h input (history ++ later)).machine.Gives g e := by
  induction later using List.reverseRecOn with
  | nil => rwa [List.append_nil]
  | append_singleton later command ih =>
    have hbefore := ih fun before c rest he =>
      hall before c (rest ++ [command]) (by rw [he]; simp)
    rw [← List.append_assoc, after_machine]
    exact perform_gives hbefore (hall later command [] rfl)

end Afterwards

/-! ## Sessions -/

/-- In every session: a file that an import or a command loads exports exactly the names of the public
bindings and of the modules at its top, and, if nothing has taken these names otherwise meanwhile, its
own frame gives them the values that it exports. It goes on to do so through every task and every
command that does not take them otherwise. -/
theorem exports_agree (h : Host) (input : Text) (history : List Command) :
    (∀ relative importer p depth w m e k, h.disk.resolveImport relative importer = .ok p →
      m.loaded? p = none → load h ((run h depth).below h w) relative importer m = .ok e k →
      ∃ text program, h.disk.readText p = .ok text ∧
        Loaded h depth (some w) p (m.siteFor p) text ((m.begun p).opened p) k e program) ∧
    (∀ name v k, (Command.file name).perform h h.runner (after h input history).machine = .ok v k →
      ∃ text program e, h.disk.readText (Path.ofText name) = .ok text ∧
        Loaded h h.depth none (h.disk.directory.resolve (Path.ofText name))
          ⟨(Path.ofText name).text, globalFrame, (after h input history).machine.exports.size⟩ text
          (withSite ((after h input history).machine.begun
            (h.disk.directory.resolve (Path.ofText name)))) k e program) ∧
    (∀ depth t m g e, Machine.Gives g e m →
      Throughout h depth (ofExports e g).Spares (fun self => self t) m →
      (endOf (run h depth t m)).Gives g e) ∧
    ∀ g e later, (after h input history).machine.Gives g e → AllSpare h input history later e g →
      (after h input (history ++ later)).machine.Gives g e := by
  obtain ⟨-, w, -, hout⟩ := Conduct.after_fits (Rollback.outside_serving h history)
    (Rollback.outside_blank input) fun c hc => hc
  obtain ⟨hframe, houtside⟩ := Rollback.Outside.frame hout globalFrame (.inr (by decide))
  exact ⟨fun relative importer p depth w m e k => load_loaded,
    fun name v k => perform_loaded hframe houtside, fun depth t m g e => task_gives,
    fun g e later => after_gives⟩

def plainHost : Host := hostWith [(["lib.rs"], "pub let x = 1\n")]

def bindsX : Except Failure Program → Bool
  | .ok [.publicBinding _ n (.constant _ _)] => n == "x"
  | _ => false

theorem bindsX_eq_true {r : Except Failure Program} (hr : bindsX r = true) :
    ∃ l l' q, r = .ok [.publicBinding l "x" (.constant l' q)] := by
  unfold bindsX at hr
  split at hr
  · exact ⟨_, _, _, by rw [eq_of_beq hr]⟩
  · cases hr

theorem exports_agree_plain :
    ∃ v k e, (Command.file "lib.rs").perform plainHost plainHost.runner
        (after plainHost "" []).machine = .ok v k ∧
      k.loaded? (plainHost.disk.directory.resolve (Path.ofText "lib.rs")) = some e ∧
      (∀ n, e.has n = true ↔ n = "x") ∧ k.Gives globalFrame e := by
  have hends : endsWith (fun _ => true) ((Command.file "lib.rs").perform plainHost plainHost.runner
      (after plainHost "" []).machine) = true := by decide +kernel
  have hread : plainHost.disk.readText (Path.ofText "lib.rs") = .ok "pub let x = 1\n" := by
    decide +kernel
  have hbinds : bindsX (plainHost.read (Path.ofText "lib.rs").text "pub let x = 1\n") = true := by
    decide +kernel
  obtain ⟨v, k, hperform, -⟩ := endsWith_eq_true hends
  obtain ⟨l, l', q, hprogram⟩ := bindsX_eq_true hbinds
  obtain ⟨text, program, e, ht, hl⟩ := (exports_agree plainHost "" []).2.1 "lib.rs" v k hperform
  rw [hread] at ht
  cases ht
  obtain rfl := Except.ok.inj (hprogram.symm.trans hl.read)
  exact ⟨v, k, e, hperform, hl.loaded, fun n => (hl.names n).trans List.mem_singleton,
    hl.values (topSpares_constant _ _)⟩

/-- One function of the file gives another one a further variant. -/
def extendedHost : Host :=
  hostWith [(["lib.rs"], "pub let f = fn(x) => x\npub let extend = fn() => \x7b\n" ++
    " var f = fn(a, b) => a + b\n\x7d\npub let call = fn() => f(1, 2)\n")]

def extended : List Command :=
  [.source "<input>" "imp extend, call from \"lib.rs\"", .source "<input>" "extend()"]

def isThree : Value → Bool
  | .number (.int i) => i == 3
  | _ => false

/-- For code of the file `f` has a variant for two arguments; whoever imports it gets it without. -/
theorem exports_fall_behind :
    endsWith isThree ((Command.source "<input>" "call()").perform extendedHost extendedHost.runner
      (after extendedHost "" extended).machine) = true ∧
    failsWith (·.kind == .arityMismatch)
      ((Command.source "<input>" "f(1, 2)").perform extendedHost extendedHost.runner
        (after extendedHost ""
          (extended ++ [.source "<input>" "imp f from \"lib.rs\""])).machine) = true := by
  constructor <;> decide +kernel

end Catalog

end ModuleScript
