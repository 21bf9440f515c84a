import ModuleScript.Proofs.Levels
import ModuleScript.Proofs.Lexical
import ModuleScript.Proofs.Paths
import ModuleScript.Proofs.Simulation.Natives
import ModuleScript.Proofs.Store

/-!
# Simulations

A simulation relates two runs of the language: their machines, the values on them, and the code that
both may run at the same place. Its laws say of each single action of evaluation that it keeps the
runs related; that whole runs stay related follows from them once and for all. With the same run on
both sides a simulation is an invariant of runs.
-/

set_option autoImplicit false

namespace ModuleScript

open Eval

/-- Bindings of the same names to values that correspond. -/
def Likeness.Bound (k : Likeness) : Bindings Slot → Bindings Slot → Prop :=
  Bindings.Related fun _ s t => ∃ v v', s = .value v ∧ t = .value v' ∧ k.Matches v v'

def Likeness.Exported (k : Likeness) : Exports → Exports → Prop :=
  Bindings.Related fun _ => k.Matches

/-- New frames outside all module bodies, with values that correspond. -/
structure Likeness.Frames (k : Likeness) (f f' : Frame) : Prop where
  name : f.name = f'.name
  record : f.record = none
  record' : f'.record = none
  bindings : k.Bound f.bindings f'.bindings

theorem Likeness.Bound.eq {k : Likeness} (hk : ∀ {v v'}, k.Matches v v' → v = v')
    {b b' : Bindings Slot} (h : k.Bound b b') : b = b' := by
  refine Bindings.Related.eq h ?_
  rintro _ _ _ ⟨v, v', rfl, rfl, hv⟩
  rw [hk hv]

theorem Likeness.Frames.eq {k : Likeness} (hk : ∀ {v v'}, k.Matches v v' → v = v')
    {f f' : Frame} (h : k.Frames f f') : f = f' := by
  obtain ⟨n, r, b⟩ := f
  obtain ⟨n', r', b'⟩ := f'
  obtain ⟨hn, hr, hr', hb⟩ := h
  dsimp only at hn hr hr' hb
  rw [hn, hr, hr', hb.eq hk]

theorem Likeness.exported_identity (e : Exports) : Likeness.identity.Exported e e :=
  Bindings.related_refl fun p _ => Likeness.identity_refl p.2

/-- The places of two runs: their machines, values, sources and contexts. -/
structure Setting extends Worlds where
  like : World → Likeness
  Sites : World → Site → Site → Prop
  /-- Statements that both runs may come to run, each in its context. -/
  Code : World → Context → Context → Stmt → Prop
  /-- Declarations, not always the same in both runs, that they may come to run. -/
  Decl : World → Context → Stmt → Context → Stmt → Prop
  /-- Declarations that are dealt with apart. -/
  Apart : World → Context → Stmt → Context → Stmt → Prop
  /-- Modules with these names and bodies have been opened. -/
  Body : World → Context → Ident → List Stmt → Opened → Context → List Stmt → Opened → Prop
  /-- Whether the value of a declaration is of interest. -/
  Seen : Context → Prop
  /-- Statements that may bind names where they run. -/
  Defines : Context → Stmt → Prop
  /-- Whether functions may get more variants. -/
  Varies : Prop
  /-- Whether modules may be declared. -/
  Declares : Prop
  /-- Files that may be looked for among those that have been loaded. -/
  Seeks : Path → Prop

namespace Setting

variable (S : Setting)

/-- The statement may do itself what it does. -/
structure Permits (c : Context) (s : Stmt) : Prop where
  defines : S.Defines c s
  varies : S.Varies ∨ s.isVariation = false
  declares : S.Declares ∨ s.isModule = false

abbrev Values (w : S.World) : Value → Value → Prop := (S.like w).Matches

/-- Variants for the same parameters with the same body, which both may run. -/
structure Variants (w : S.World) (v v' : Variant) : Prop where
  params : v.params = v'.params
  body : v.body = v'.body
  enter : ∀ {s s' f f'}, S.Sites w s s' → (S.like w).Frames f f' →
    S.Agree w (fun w' d d' => S.Code w' d d' (.expr v.body))
      (Context.enter ⟨s, v.scope, v.module⟩ f) (Context.enter ⟨s', v'.scope, v'.module⟩ f')

/-- A declaration is the same in both runs, or is dealt with apart, or is a module whose bodies may
differ. -/
inductive Declared (w : S.World) (c : Context) : Stmt → Context → Stmt → Prop where
  | same {c' : Context} {s : Stmt} : S.Code w c c' s → Declared w c s c' s
  | apart {c' : Context} {s s' : Stmt} : S.Apart w c s c' s' → Declared w c s c' s'
  | module {c' : Context} {l : Location} {isPublic : Bool} {n : Ident} {body body' : List Stmt} :
      S.Agree w (fun w' o o' => S.Body w' c n body o c' body' o') (openModule c isPublic n)
        (openModule c' isPublic n) →
      Declared w c (.module l isPublic n body) c' (.module l isPublic n body')

end Setting

/-- A setting whose relations are kept by every single action of evaluation other than those that
load files. -/
structure Actions extends Setting where
  closure_later : ∀ {w w' a b}, Later w w' → (like w).closure a b → (like w').closure a b
  module_later : ∀ {w w' i p j q}, Later w w' → (like w).module i p j q →
    (like w').module i p j q
  sites_later : ∀ {w w' s s'}, Later w w' → Sites w s s' → Sites w' s s'
  code_later : ∀ {w w' c c' s}, Later w w' → Code w c c' s → Code w' c c' s
  decl_later : ∀ {w w' c s c' s'}, Later w w' → Decl w c s c' s' → Decl w' c s c' s'
  body_later : ∀ {w w' c n ss o c' ss' o'}, Later w w' → Body w c n ss o c' ss' o' →
    Body w' c n ss o c' ss' o'
  code_site : ∀ {w c c' s}, Code w c c' s → Sites w c.site c'.site
  code_part : ∀ {w c c' s t}, Code w c c' s → t ∈ s.inPlace → Code w c c' t
  /-- A new frame inside a statement is a place for the nodes below it. -/
  enter : ∀ {w c c' s f f'}, Code w c c' s → s.opens = true → (like w).Frames f f' →
    toWorlds.Agree w (fun w' d d' => ∀ t ∈ s.parts, Code w' d d' t) (c.enter f) (c'.enter f')
  arities : ∀ {w a b}, (like w).closure a b → a.arities = b.arities
  variant : ∀ {w a b}, (like w).closure a b → ∀ n,
    Option.Rel (toSetting.Variants w) (a.variant? n) (b.variant? n)
  name : ∀ {w c c' l n}, Code w c c' (.expr (.name l n)) →
    toWorlds.Agree w (fun w' x y => toSetting.Values w' x.2 y.2) (resolve c n) (resolve c' n)
  dotted : ∀ {w c c' l ns}, Code w c c' (.expr (.dotted l ns)) →
    toWorlds.Agree w toSetting.Values (Eval.dotted c ns) (Eval.dotted c' ns)
  define : ∀ {w c c' s n isPublic v v'}, Defines c s → Code w c c' s → (n, isPublic) ∈ s.binds →
    toSetting.Values w v v' →
    toWorlds.Agree w (fun _ _ _ => True) (Eval.define c n v isPublic) (Eval.define c' n v' isPublic)
  lambda : ∀ {w c c' l n ps body}, Code w c c' (.expr (.lambda l n ps body)) →
    toWorlds.Agree w toSetting.Values (newClosure n [variantHere c ps body])
      (newClosure n [variantHere c' ps body])
  vary : ∀ {w c c' l n l' ps body}, Varies → Code w c c' (.variation l n l' ps body) →
    toWorlds.Agree w toSetting.Values (Eval.vary c n (variantHere c ps body))
      (Eval.vary c' n (variantHere c' ps body))
  module : ∀ {w c c' l isPublic n body}, Declares → Code w c c' (.module l isPublic n body) →
    toWorlds.Agree w (fun w' o o' => Body w' c n body o c' body o') (openModule c isPublic n)
      (openModule c' isPublic n)
  write : ∀ {w} t, toWorlds.Agree w (fun _ _ _ => True) (Eval.write t) (Eval.write t)
  readLine : ∀ {w}, toWorlds.Agree w toSetting.Values Eval.readLine Eval.readLine
  declared : ∀ {w c s c' s'}, Decl w c s c' s' → toSetting.Declared w c s c' s'
  /-- Declarations that are dealt with apart lie equally many levels down. -/
  apart_work : ∀ {w c s c' s'}, Apart w c s c' s' → (Task.eval c s).work = (Task.eval c' s').work
  body_module : ∀ {w c n ss o c' ss' o'}, Body w c n ss o c' ss' o' →
    (like w).module o.id o.path o'.id o'.path
  /-- Once the members have been declared, the statements of the bodies may run. -/
  body_members : ∀ {w c n ss o c' ss' o'}, Body w c n ss o c' ss' o' →
    toWorlds.Agree w
      (fun w' _ _ => List.Forall₂ (fun s s' => Decl w' o.inner s o'.inner s') ss ss')
      (declareMembers o.id ss) (declareMembers o'.id ss')
  body_restore : ∀ {w c n ss o c' ss' o' m m'}, Body w c n ss o c' ss' o' → Machines w m m' →
    ∃ w', Later w w' ∧ Machines w' (restore c n o.old (m.removeModule o.path))
      (restore c' n o'.old (m'.removeModule o'.path))

/-- What evaluating a file does itself keeps the runs related. -/
structure Actions.Evaluates (S : Actions) (h : Host) (p : Path) : Prop where
  file : ∀ {w t program}, h.disk.readText p = .ok t → h.read p.text t = .ok program →
    S.Agree w
      (fun w' s s' => S.Sites w' s s' ∧ ∀ st ∈ program,
        S.Decl w' (top s [preludeFrame, builtinsFrame]) st (top s' [preludeFrame, builtinsFrame]) st)
      (openFile p) (openFile p)
  exports : ∀ {w s s' m m'}, S.Sites w s s' → S.Machines w m m' →
    (S.like w).Exported (m.exportsOf s.exports) (m'.exportsOf s'.exports)

/-- A setting whose relations are kept by every single action of evaluation. -/
structure Simulation (h : Host) extends Actions where
  site_source : ∀ {w s s'}, Sites w s s' → s.source = s'.source
  loaded : ∀ {w m m'} p, Seeks p → Machines w m m' →
    Option.Rel (like w).Exported (m.loaded? p) (m'.loaded? p)
  begin_loading : ∀ {w} p, toWorlds.Agree w (fun _ _ _ => True) (change (·.beginLoading p))
    (change (·.beginLoading p))
  abort_loading : ∀ {w m m'} p, Machines w m m' →
    ∃ w', Later w w' ∧ Machines w' (m.abortLoading p) (m'.abortLoading p)
  finish_loading : ∀ {w e e'} p, (like w).Exported e e' →
    toWorlds.Agree w (fun _ _ _ => True) (change (·.finishLoading p e))
      (change (·.finishLoading p e'))
  file : ∀ {w p t program}, h.disk.LeadsTo p → h.disk.readText p = .ok t →
    h.read p.text t = .ok program →
    toWorlds.Agree w
      (fun w' s s' => Sites w' s s' ∧ ∀ st ∈ program,
        Decl w' (top s [preludeFrame, builtinsFrame]) st (top s' [preludeFrame, builtinsFrame]) st)
      (openFile p) (openFile p)
  exports : ∀ {w s s' m m'}, Sites w s s' → Machines w m m' →
    (like w).Exported (m.exportsOf s.exports) (m'.exportsOf s'.exports)

namespace Actions

variable (S : Actions)

/-- Two steps keep the runs related on every task that does not wait. -/
structure Attends (next next' : Step) : Prop where
  code : ∀ {w c c' s}, S.Code w c c' s →
    S.Agree w S.Values (next (.eval c s)) (next' (.eval c' s))
  decl : ∀ {w c s c' s'}, S.Decl w c s c' s' →
    S.Agree w (fun w' a b => S.Seen c → S.Values w' a b) (next (.eval c s)) (next' (.eval c' s'))
  apply : ∀ {w s s' f f' args args'}, S.Sites w s s' → S.Values w f f' →
    List.Forall₂ (S.Values w) args args' →
    S.Agree w S.Values (next (.apply s f args)) (next' (.apply s' f' args'))
  ask : ∀ {w} d, S.Agree w S.Values (next (.ask d)) (next' (.ask d))

/-- Two steps keep the runs related on every task, however many levels it waits. -/
def Follows (next next' : Step) : Prop := ∀ n, S.Attends (next.later n) (next'.later n)

/-- What an import loads corresponds in both runs. -/
def Loads (h : Host) (self self' : Step) : Prop :=
  ∀ {w c c' l names path}, S.Code w c c' (.imports l names path) →
    S.Agree w (fun w' => (S.like w').Exported) (load h self path c.site.source)
      (load h self' path c'.site.source)

variable {S}

theorem values_later {w w' : S.World} {v v' : Value} (hw : S.Later w w') (hv : S.Values w v v') :
    S.Values w' v v' :=
  hv.mono (S.closure_later hw) (S.module_later hw)

theorem forall₂_later {w w' : S.World} {vs vs' : List Value} (hw : S.Later w w')
    (h : List.Forall₂ (S.Values w) vs vs') : List.Forall₂ (S.Values w') vs vs' :=
  h.imp fun _ _ => values_later hw

theorem exported_later {w w' : S.World} {e e' : Exports} (hw : S.Later w w')
    (h : (S.like w).Exported e e') : (S.like w').Exported e e' :=
  Bindings.Related.imp h fun _ _ _ => values_later hw

namespace Follows

variable {next next' self self' : Step} (hf : S.Follows next next') {w : S.World}

include hf

theorem code {c c' : Context} {s : Stmt} (hc : S.Code w c c' s) :
    S.Agree w S.Values (next (.eval c s)) (next' (.eval c' s)) :=
  (hf 0).code hc

theorem decl {c c' : Context} {s s' : Stmt} (hd : S.Decl w c s c' s') :
    S.Agree w (fun w' a b => S.Seen c → S.Values w' a b) (next (.eval c s)) (next' (.eval c' s')) :=
  (hf 0).decl hd

theorem apply {s s' : Site} {f f' : Value} {args args' : List Value} (hs : S.Sites w s s')
    (hv : S.Values w f f') (ha : List.Forall₂ (S.Values w) args args') :
    S.Agree w S.Values (next (.apply s f args)) (next' (.apply s' f' args')) :=
  (hf 0).apply hs hv ha

theorem ask (d : Demand) : S.Agree w S.Values (next (.ask d)) (next' (.ask d)) := (hf 0).ask d

end Follows

/-- No step that never begins its tasks sets two runs apart. -/
theorem follows_tooDeep (next next' : Step) (hs : ∀ t, next t = throw .tooDeep)
    (hs' : ∀ t, next' t = throw .tooDeep) : S.Follows next next' := by
  intro n
  have hn : next.later n = fun _ => throw .tooDeep := funext fun _ => hs _
  have hn' : next'.later n = fun _ => throw .tooDeep := funext fun _ => hs' _
  rw [hn, hn']
  exact ⟨fun _ => Worlds.agree_throw _, fun _ => Worlds.agree_throw _,
    fun _ _ _ => Worlds.agree_throw _, fun _ => Worlds.agree_throw _⟩

/-- Tasks that wait are handed on. -/
theorem Attends.follows {self self' next next' : Step} (ha : S.Attends next next')
    (hw : ∀ {w m m'} t, S.Machines w m m' →
      next (.wait t) m = self t m ∧ next' (.wait t) m' = self' t m')
    (hs : S.Follows self self') : S.Follows next next' := by
  have hlater : ∀ {w : S.World} {P : S.World → Value → Value → Prop} {t t' : Task} (n : Nat),
      S.Agree w P (self.later n t) (self'.later n t') →
      S.Agree w P (next.later (n + 1) t) (next'.later (n + 1) t') := by
    intro w P t t' n hagree m m' hm
    have hnext : next.later (n + 1) t m = self.later n t m := (hw _ hm).1
    have hnext' : next'.later (n + 1) t' m' = self'.later n t' m' := (hw _ hm).2
    rw [hnext, hnext']
    exact hagree m m' hm
  intro n
  cases n with
  | zero => exact ha
  | succ n =>
    exact ⟨fun hc => hlater n ((hs n).code hc), fun hd => hlater n ((hs n).decl hd),
      fun hs' hf hargs => hlater n ((hs n).apply hs' hf hargs), fun d => hlater n ((hs n).ask d)⟩

theorem decl_work {w : S.World} {c c' : Context} {s s' : Stmt} (hd : S.Decl w c s c' s') :
    (Task.eval c s).work = (Task.eval c' s').work := by
  cases S.declared hd with
  | same => rfl
  | apart ha => exact S.apart_work ha
  | module => rfl

/-- Tasks that correspond wait equally long below the same work. -/
theorem Follows.below {next next' : Step} (hf : S.Follows next next') (h : Host) (o : Work) :
    S.Follows (next.below h o) (next'.below h o) := by
  have hbelow : ∀ (self : Step) (n : Nat) (t : Task),
      (self.below h o).later n t = self.later (h.platform.between o t.work + n) t := fun self n t => by
    unfold Step.later Step.below
    rw [Task.work_after, Task.after_after]
  refine fun n => ⟨fun hc => ?_, fun {w c s c' s'} hd => ?_, fun {w s s' f f' args args'} hs hv ha => ?_,
    fun d => ?_⟩
  · rw [hbelow, hbelow]
    exact (hf _).code hc
  · rw [hbelow, hbelow, ← decl_work hd]
    exact (hf _).decl hd
  · have hwork : (Task.apply s f args).work = (Task.apply s' f' args').work :=
      congrArg Work.apply ha.length_eq
    rw [hbelow, hbelow, ← hwork]
    exact (hf _).apply hs hv ha
  · rw [hbelow, hbelow]
    exact (hf _).ask d

theorem Follows.under {next next' : Step} (hf : S.Follows next next') (h : Host)
    (o : Option Work) : S.Follows (next.under h o) (next'.under h o) := by
  cases o with
  | none => exact hf
  | some w => exact hf.below h w

end Actions

end ModuleScript
