import ModuleScript.Proofs.Conduct.Changes
import ModuleScript.Proofs.Modules.Declaring
import ModuleScript.Proofs.Simulation.Run

/-!
# Conducts

A conduct says of one run what the machine is like wherever the run is, which closures it may hold,
and which code may run in which context; and that evaluation keeps to this, action by action. It is a
simulation of the run by itself.
-/

set_option autoImplicit false

namespace ModuleScript

open Eval

/-! ## Values with good closures -/

/-- Good closures, and all modules, correspond to themselves only. -/
def Likeness.only (good : Closure → Prop) : Likeness where
  closure a b := a = b ∧ good a
  module i p j q := i = j ∧ p = q
  closure_name := by
    rintro _ _ ⟨rfl, -⟩
    rfl
  closure_identity := by
    rintro _ _ _ _ ⟨rfl, -⟩ ⟨rfl, -⟩
    rfl
  module_text := @Likeness.module_text .identity
  module_id := @Likeness.module_id .identity

/-- All closures in the value are good. -/
def Value.Carries (good : Closure → Prop) (v : Value) : Prop :=
  (Likeness.only good).Matches v v

namespace Value

variable {good good' : Closure → Prop} {v v' : Value}

theorem eq_of_only (h : (Likeness.only good).Matches v v') : v = v' :=
  h.eq And.left id

theorem carries_of_only (h : (Likeness.only good).Matches v v') : v.Carries good := by
  obtain rfl := eq_of_only h
  exact h

theorem Carries.mono (h : v.Carries good) (hg : ∀ f, good f → good' f) : v.Carries good' := by
  have hv : (Likeness.only good).Matches v v := h
  have hclosure : ∀ {a b}, (Likeness.only good).closure a b → (Likeness.only good').closure a b :=
    fun hf => ⟨hf.1, hg _ hf.2⟩
  have hv' : (Likeness.only good').Matches v v := hv.mono hclosure id
  exact hv'

theorem carries_of_all (h : ∀ f, good f) (v : Value) : v.Carries good :=
  Likeness.matches_refl (k := Likeness.only good) (fun f => ⟨rfl, h f⟩) (fun _ _ => ⟨rfl, rfl⟩) v

theorem carries_plain (h : v.isPlain = true) : v.Carries good := .plain h

theorem carries_closure {f : Closure} : (Value.closure f).Carries good ↔ good f := by
  constructor
  · intro h
    cases h with
    | plain h => cases h
    | closure h => exact h.2
  · exact fun h => .closure ⟨rfl, h⟩

theorem carries_module (i : RecordId) (p : ModulePath) : (Value.module i p).Carries good :=
  .module ⟨rfl, rfl⟩

end Value

/-- A new frame outside all module bodies that binds values with good closures only. -/
structure Frame.Carries (good : Closure → Prop) (f : Frame) : Prop where
  record : f.record = none
  bindings : ∀ {n s}, (n, s) ∈ f.bindings → ∃ v, s = .value v ∧ v.Carries good

theorem Frame.Carries.good {good : Closure → Prop} {f : Frame} (h : f.Carries good) {n : Ident}
    {v : Value} (hv : (n, .value v) ∈ f.bindings) : v.Carries good := by
  obtain ⟨u, hu, hgood⟩ := h.bindings hv
  cases hu
  exact hgood

theorem Likeness.Frames.only {good : Closure → Prop} {f f' : Frame}
    (h : (Likeness.only good).Frames f f') : f = f' ∧ f.Carries good := by
  obtain rfl := h.eq Value.eq_of_only
  refine ⟨rfl, h.record, fun {n s} hn => ?_⟩
  obtain ⟨-, v, v', hs, -, hv⟩ := List.forall₂_same.mp h.bindings (n, s) hn
  exact ⟨v, hs, Value.carries_of_only hv⟩

section Awaited

variable {W : Type} (Later : W → W → Prop) (Fits : W → Machine → Prop)
  (Code : W → Context → Stmt → Prop)

/-- The statements of a body may be evaluated in the context once the module has the members that
they declare. -/
def Awaited (w : W) (c : Context) (i : RecordId) (body : List Stmt) : Prop :=
  ∀ w₁ m, Later w w₁ → Fits w₁ m → (i < m.records.size → m.Declares i body) →
    ∃ w₂, Later w₁ w₂ ∧ Fits w₂ m ∧ ∀ s ∈ body, Code w₂ c s

variable {Later Fits Code}

/-- Code that may be evaluated at once waits for nothing. -/
theorem Awaited.of_code {w : W} {c : Context} {i : RecordId} {body : List Stmt}
    (hrefl : ∀ w, Later w w) (hlater : ∀ {w w' c s}, Later w w' → Code w c s → Code w' c s)
    (h : ∀ s ∈ body, Code w c s) : Awaited Later Fits Code w c i body :=
  fun w₁ _ hl hm _ => ⟨w₁, hrefl w₁, hm, fun s hs => hlater hl (h s hs)⟩

end Awaited

/-- What is said of one run, kept by every single action of evaluation other than those that load
files. -/
structure Conduct where
  World : Type
  Later : World → World → Prop
  later_refl : ∀ w, Later w w
  later_trans : ∀ {a b c}, Later a b → Later b c → Later a c
  /-- What the machine is like. -/
  Fits : World → Machine → Prop
  /-- Which closures there may be. -/
  Good : World → Closure → Prop
  /-- On behalf of which sources functions may be called. -/
  Serves : World → Site → Prop
  /-- What may be evaluated in which context. -/
  Code : World → Context → Stmt → Prop
  /-- Where the machine may be changed. -/
  Here : World → Place → Prop
  /-- Whether functions may get more variants. -/
  Varies : Prop
  good_later : ∀ {w w' f}, Later w w' → Good w f → Good w' f
  serves_later : ∀ {w w' s}, Later w w' → Serves w s → Serves w' s
  code_later : ∀ {w w' c s}, Later w w' → Code w c s → Code w' c s
  here_later : ∀ {w w' p}, Later w w' → Here w p → Here w' p
  code_site : ∀ {w c s}, Code w c s → Serves w c.site
  code_part : ∀ {w c s t}, Code w c s → t ∈ s.parts → Code w c t
  holds : ∀ {w m}, Fits w m → m.Holds (Value.Carries (Good w))
  writable : ∀ {w m c s}, Fits w m → Code w c s → m.Writable (Here w) c
  erasable : ∀ {w m c l isPublic n body}, Fits w m → Code w c (.module l isPublic n body) →
    c.scope.frame = c.site.globals → Here w (.erasure c.site.exports)
  change : ∀ {w m m'}, Fits w m → m.Change (Value.Carries (Good w)) (Here w) m' → Fits w m'
  enter : ∀ {w m c s f}, Fits w m → Code w c s → s.opens = true → f.Carries (Good w) →
    ∃ w', Later w w' ∧ Fits w' (m.pushFrame f) ∧
      ∀ t ∈ s.parts, Code w' { c with scope := c.scope.push m.frames.size } t
  call : ∀ {w m f v s g}, Fits w m → Good w f → v ∈ f.variants → Serves w s → g.Carries (Good w) →
    ∃ w', Later w w' ∧ Fits w' (m.pushFrame g) ∧
      Code w' ⟨s, v.scope.push m.frames.size, v.module⟩ (.expr v.body)
  lambda : ∀ {w m c l n ps body}, Fits w m → Code w c (.expr (.lambda l n ps body)) →
    ∃ w', Later w w' ∧ Fits w' { m with functions := m.functions + 1 } ∧
      Good w' ⟨m.functions, n, [variantHere c ps body]⟩
  vary : ∀ {w m c l n l' ps body r f}, Varies → Fits w m → Code w c (.variation l n l' ps body) →
    resolve c n m = .ok (r, .closure f) m → Good w f → f.variant? ps.length = none →
    ∃ w', Later w w' ∧ Fits w' { m with functions := m.functions + 1 } ∧
      Good w' ⟨m.functions, f.name, f.variants ++ [variantHere c ps body]⟩ ∧
      r.Writable (Here w') c
  register : ∀ {w m m' c l isPublic n body i p isOutermost}, Fits w m →
    Code w c (.module l isPublic n body) → register c n m = .ok (i, p, isOutermost) m' →
    ∃ w', Later w w' ∧ Fits w' m' ∧ Here w' (.record i) ∧ Here w' (.module p)
  /-- The path is the one under which the code registered the module, on some machine before. -/
  enterModule : ∀ {w m c l isPublic n body name i p}, Fits w m →
    Code w c (.module l isPublic n body) → Here w (.record i) → Here w (.module p) →
    (m.record i).path = p →
    (∃ w₀ m₀, Later w₀ w ∧ Fits w₀ m₀ ∧ Code w₀ c (.module l isPublic n body) ∧
      m₀.pathFor c n = p) →
    ∃ w', Later w w' ∧ Fits w' (m.pushFrame { name, record := some i }) ∧
      Awaited Later Fits Code w' ⟨c.site, c.scope.push m.frames.size, some p⟩ i body

namespace Conduct

variable (C : Conduct)

abbrev worlds : Worlds where
  World := C.World
  Later := C.Later
  later_refl := C.later_refl
  later_trans := C.later_trans
  Machines w m n := m = n ∧ C.Fits w m

/-- The values that there may be. -/
abbrev Valid (w : C.World) : Value → Prop := Value.Carries (C.Good w)

variable {C} {α β : Type} {w : C.World}

/-- A computation that fits, and yields one thing, wherever the machine fits. -/
def Keeps (C : Conduct) (w : C.World) (P : C.World → α → Prop) (x : Eval α) : Prop :=
  ∀ m, C.Fits w m →
    (∃ a m' w', x m = .ok a m' ∧ C.Later w w' ∧ C.Fits w' m' ∧ P w' a) ∨
      ∃ e m' w', x m = .error e m' ∧ C.Later w w' ∧ C.Fits w' m'

theorem Keeps.agree {P : C.World → α → Prop} {Q : C.World → α → α → Prop} {x : Eval α}
    (hx : C.Keeps w P x) (hQ : ∀ w' a, C.Later w w' → P w' a → Q w' a a) :
    C.worlds.Agree w Q x x := by
  rintro m _ ⟨rfl, hm⟩
  rcases hx m hm with ⟨a, m', w', he, hl, hm', ha⟩ | ⟨e, m', w', he, hl, hm'⟩
  · rw [he]
    exact .ok hl ⟨rfl, hm'⟩ (hQ w' a hl ha)
  · have hend : C.worlds.Machines w' m' m' := ⟨rfl, hm'⟩
    rw [he]
    exact .error hl hend

theorem Keeps.bind {P : C.World → α → Prop} {Q : C.World → β → Prop} {x : Eval α}
    {f : α → Eval β} (hx : C.Keeps w P x)
    (hf : ∀ w' a, C.Later w w' → P w' a → C.Keeps w' Q (f a)) : C.Keeps w Q (x >>= f) := by
  intro m hm
  rcases hx m hm with ⟨a, m', w', he, hl, hm', ha⟩ | ⟨e, m', w', he, hl, hm'⟩
  · rw [bind_of_ok he]
    rcases hf w' a hl ha m' hm' with ⟨b, m₂, w₂, he₂, hl₂, h⟩ | ⟨e, m₂, w₂, he₂, hl₂, h⟩
    · exact .inl ⟨b, m₂, w₂, he₂, C.later_trans hl hl₂, h⟩
    · exact .inr ⟨e, m₂, w₂, he₂, C.later_trans hl hl₂, h⟩
  · exact .inr ⟨e, m', w', bind_of_error he, hl, hm'⟩

theorem keeps_pure {P : C.World → α → Prop} {a : α} (ha : P w a) : C.Keeps w P (pure a) :=
  fun m hm => .inl ⟨a, m, w, rfl, C.later_refl w, hm, ha⟩

theorem keeps_reads {P : C.World → α → Prop} {x : Eval α} (hx : Reads x)
    (hP : ∀ m a, C.Fits w m → x m = .ok a m → P w a) : C.Keeps w P x := by
  intro m hm
  rcases hx m with ⟨a, ha⟩ | ⟨e, he⟩
  · exact .inl ⟨a, m, w, ha, C.later_refl w, hm, hP m a hm ha⟩
  · exact .inr ⟨e, m, w, he, C.later_refl w, hm⟩

theorem keeps_change {f : Machine → Except Failure Machine}
    (hf : ∀ m m', C.Fits w m → f m = .ok m' → C.Fits w m') :
    C.Keeps w (fun _ _ => True) (Eval.change f) := by
  intro m hm
  unfold Eval.change
  cases he : f m with
  | error e => exact .inr ⟨e, m, w, rfl, C.later_refl w, hm⟩
  | ok m' => exact .inl ⟨⟨⟩, m', w, rfl, C.later_refl w, hf m m' hm he, trivial⟩

theorem keeps_forM {f : α → Eval PUnit} {xs : List α}
    (hf : ∀ w' a, C.Later w w' → a ∈ xs → C.Keeps w' (fun _ _ => True) (f a)) :
    C.Keeps w (fun _ _ => True) (xs.forM f) := by
  induction xs generalizing w with
  | nil => exact keeps_pure trivial
  | cons a xs ih =>
    refine (hf w a (C.later_refl w) (.head _)).bind fun w₁ _ hl _ => ?_
    exact ih fun w' b hl' hb => hf w' b (C.later_trans hl hl') (.tail _ hb)

theorem fits_changes {m m' : Machine} (hm : C.Fits w m)
    (h : m.Changes (C.Valid w) (C.Here w) m') : C.Fits w m' := by
  induction h with
  | refl => exact hm
  | tail _ hc ih => exact C.change ih hc

theorem valid_later {w' : C.World} {v : Value} (hl : C.Later w w') (hv : C.Valid w v) :
    C.Valid w' v :=
  hv.mono fun _ => C.good_later hl

/-! ## Single actions -/

variable {c : Context} {s : Stmt} {n : Ident}

theorem keeps_enter (hc : C.Code w c s) (hs : s.opens = true) {f : Frame} (hf : f.Carries (C.Good w)) :
    C.Keeps w (fun w' d => ∀ t ∈ s.parts, C.Code w' d t) (c.enter f) := by
  intro m hm
  obtain ⟨w', hl, hm', hparts⟩ := C.enter hm hc hs hf
  exact .inl ⟨_, _, w', rfl, hl, hm', hparts⟩

theorem keeps_call {f : Closure} {v : Variant} {site : Site} {g : Frame} (hf : C.Good w f)
    (hv : v ∈ f.variants) (hs : C.Serves w site) (hg : g.Carries (C.Good w)) :
    C.Keeps w (fun w' d => C.Code w' d (.expr v.body))
      (Context.enter ⟨site, v.scope, v.module⟩ g) := by
  intro m hm
  obtain ⟨w', hl, hm', hbody⟩ := C.call hm hf hv hs hg
  exact .inl ⟨_, _, w', rfl, hl, hm', hbody⟩

theorem keeps_resolve (w : C.World) (c : Context) (n : Ident) :
    C.Keeps w (fun w' r => C.Valid w' r.2) (resolve c n) :=
  keeps_reads (reads_resolve c n) fun _ _ hm hr => (C.holds hm).resolve hr

theorem keeps_dotted (w : C.World) (c : Context) (ns : List Ident) :
    C.Keeps w C.Valid (Eval.dotted c ns) :=
  keeps_reads (reads_dotted c ns) fun _ _ hm hv =>
    (C.holds hm).dotted (Value.carries_plain rfl) hv

theorem keeps_define (hc : C.Code w c s) (n : Ident) {v : Value} (hv : C.Valid w v)
    (isPublic : Bool) : C.Keeps w (fun _ _ => True) (Eval.define c n v isPublic) := by
  intro m hm
  obtain ⟨m', he, hm'⟩ := Machine.define_changes (C.writable hm hc) n hv isPublic
  exact .inl ⟨⟨⟩, m', w, he, C.later_refl w, fits_changes hm hm', trivial⟩

theorem keeps_lambda {l : Location} {o : Option Ident} {ps : List Ident} {body : Expr}
    (hc : C.Code w c (.expr (.lambda l o ps body))) :
    C.Keeps w C.Valid (newClosure o [variantHere c ps body]) := by
  intro m hm
  obtain ⟨w', hl, hm', hf⟩ := C.lambda hm hc
  exact .inl ⟨_, _, w', rfl, hl, hm', Value.carries_closure.mpr hf⟩

/-- A function may be given one more variant in this context on this machine. -/
def Extensible (C : Conduct) (w : C.World) (m : Machine) (c : Context) (n : Ident) (v : Variant) :
    Prop :=
  ∀ r f, resolve c n m = .ok (r, .closure f) m → C.Good w f → f.variant? v.arity = none →
    ∃ w', C.Later w w' ∧ C.Fits w' { m with functions := m.functions + 1 } ∧
      C.Good w' ⟨m.functions, f.name, f.variants ++ [v]⟩ ∧ r.Writable (C.Here w') c

theorem vary_ends {v : Variant} {m : Machine} (hm : C.Fits w m) (hext : C.Extensible w m c n v) :
    (∃ a m' w', Eval.vary c n v m = .ok a m' ∧ C.Later w w' ∧ C.Fits w' m' ∧ C.Valid w' a) ∨
      ∃ e m' w', Eval.vary c n v m = .error e m' ∧ C.Later w w' ∧ C.Fits w' m' := by
  unfold Eval.vary
  rcases reads_resolve c n m with ⟨⟨r, u⟩, he⟩ | ⟨e, he⟩
  · rw [bind_of_ok he]
    cases u with
    | closure f =>
      dsimp only
      split
      · exact .inr ⟨_, m, w, rfl, C.later_refl w, hm⟩
      · rename_i hnone
        have hf := Value.carries_closure.mp ((C.holds hm).resolve he)
        obtain ⟨w', hl, hm', hg, hr⟩ := hext r f he hf (Option.not_isSome_iff_eq_none.mp hnone)
        have hvalid := Value.carries_closure.mpr hg
        obtain ⟨m₂, he₂, hm₂⟩ := Machine.replace_changes
          (m := { m with functions := m.functions + 1 }) hr n hvalid
        have hnew : newClosure f.name (f.variants ++ [v]) m = .ok _ _ := rfl
        refine .inl ⟨_, m₂, w', ?_, hl, fits_changes hm' hm₂, hvalid⟩
        rw [bind_of_ok hnew, bind_of_ok he₂]
        rfl
    | _ => exact .inr ⟨_, m, w, rfl, C.later_refl w, hm⟩
  · exact .inr ⟨e, m, w, bind_of_error he, C.later_refl w, hm⟩

theorem keeps_vary (hv : C.Varies) {l l' : Location} {ps : List Ident} {body : Expr}
    (hc : C.Code w c (.variation l n l' ps body)) :
    C.Keeps w C.Valid (Eval.vary c n (variantHere c ps body)) :=
  fun _ hm => vary_ends hm fun _ _ he hf hn => C.vary hv hm hc he hf hn

/-! ## Modules -/

/-- A module that has been opened for a body. -/
structure Opens (C : Conduct) (w : C.World) (c : Context) (n : Ident) (body : List Stmt)
    (o : Opened) : Prop where
  declared : ∃ l isPublic, C.Code w c (.module l isPublic n body)
  record : C.Here w (.record o.id)
  module : C.Here w (.module o.path)
  inner : Awaited C.Later C.Fits C.Code w o.inner o.id body
  slot : ∀ v, o.old.slot = some (.value v) → C.Valid w v
  exported : ∀ v, o.old.exported = some v → C.Valid w v

theorem Opens.later {w' : C.World} {body : List Stmt} {o : Opened} (hl : C.Later w w')
    (h : C.Opens w c n body o) : C.Opens w' c n body o := by
  obtain ⟨l, isPublic, hc⟩ := h.declared
  exact ⟨⟨l, isPublic, C.code_later hl hc⟩, C.here_later hl h.record, C.here_later hl h.module,
    fun w₁ m hl₁ => h.inner w₁ m (C.later_trans hl hl₁), fun v hv => valid_later hl (h.slot v hv),
    fun v hv => valid_later hl (h.exported v hv)⟩

theorem keeps_openModule {l : Location} {isPublic : Bool} {body : List Stmt}
    (hc : C.Code w c (.module l isPublic n body)) :
    C.Keeps w (fun w' o => C.Opens w' c n body o) (openModule c isPublic n) := by
  intro m hm
  unfold openModule
  cases hr : Eval.register c n m with
  | error e m' =>
    rw [bind_of_error hr, Invariant.machine_of_register_error hr]
    exact .inr ⟨e, m, w, rfl, C.later_refl w, hm⟩
  | ok r m₁ =>
    obtain ⟨i, p, isOutermost⟩ := r
    obtain ⟨w₁, hl₁, hm₁, hi, hp⟩ := C.register hm hc hr
    have hc₁ := C.code_later hl₁ hc
    have hold := Machine.previous_good (C.holds hm₁) c n
    obtain ⟨m₂, hd, hm₂⟩ := Machine.define_changes (C.writable hm₁ hc₁) n
      (Value.carries_module i p) (isPublic || isOutermost)
    obtain ⟨w₃, hl₃, hm₃, hbody⟩ : ∃ w', C.Later w₁ w' ∧
        C.Fits w' (m₂.pushFrame { name := "mod " ++ p.text, record := some i }) ∧
        Awaited C.Later C.Fits C.Code w' ⟨c.site, c.scope.push m₂.frames.size, some p⟩ i body :=
      C.enterModule (fits_changes hm₁ hm₂) hc₁ hi hp (by rw [hm₂.path, Machine.path_register hr])
        ⟨w, m, hl₁, hm, hc, (Machine.register_eq_ok hr).1.symm⟩
    rw [bind_of_ok hr]
    dsimp only
    rw [get_bind, bind_of_ok hd]
    refine .inl ⟨_, _, w₃, rfl, C.later_trans hl₁ hl₃, hm₃, ?_⟩
    refine ⟨⟨l, isPublic, C.code_later hl₃ hc₁⟩, C.here_later hl₃ hi, C.here_later hl₃ hp, hbody,
      fun v hv => valid_later hl₃ (hold.1 v hv), fun v hv => valid_later hl₃ (hold.2 v hv)⟩

theorem keeps_declareMembers {r : RecordId} (hr : C.Here w (.record r)) (body : List Stmt) :
    C.Keeps w (fun _ _ => True) (declareMembers r body) := by
  refine keeps_forM ?_
  rintro w' ⟨n, v⟩ hl -
  refine keeps_change fun m m' hm hm' => ?_
  obtain ⟨q, hq, rfl⟩ := declare_eq_ok hm'
  exact fits_changes hm (Machine.declare_changes (C.here_later hl hr) hq)

/-- After the first phase the statements of the body may be evaluated. -/
theorem keeps_members {body : List Stmt} {o : Opened} (ho : C.Opens w c n body o) :
    C.Keeps w (fun w' _ => ∀ s ∈ body, C.Code w' o.inner s) (declareMembers o.id body) := by
  intro m hm
  rcases keeps_declareMembers ho.record body m hm with ⟨u, m', w', he, hl, hm', -⟩ | hfailed
  · obtain ⟨w₂, hl₂, hm₂, hbody⟩ :=
      ho.inner w' m' hl hm' (Machine.declares_of_declareMembers he)
    exact .inl ⟨u, m', w₂, he, C.later_trans hl hl₂, hm₂, hbody⟩
  · exact .inr hfailed

theorem fits_restore {m : Machine} {body : List Stmt} {o : Opened} (h : C.Opens w c n body o)
    (hm : C.Fits w m) : C.Fits w (restore c n o.old (m.removeModule o.path)) := by
  obtain ⟨l, isPublic, hc⟩ := h.declared
  have hremoved := C.change hm (.removeModule h.module)
  exact fits_changes hremoved
    (Machine.restore_changes (C.writable hremoved hc) (C.erasable hremoved hc) h.slot h.exported)

/-! ## The simulation of the run by itself -/

/-- The run beside itself. -/
def actions (C : Conduct) : Actions where
  toWorlds := C.worlds
  like w := Likeness.only (C.Good w)
  Sites w s s' := s = s' ∧ C.Serves w s
  Code w c c' s := c = c' ∧ C.Code w c s
  Decl w c s c' s' := c = c' ∧ s = s' ∧ C.Code w c s
  Apart _ _ _ _ _ := False
  Body w c n ss o c' ss' o' := c = c' ∧ ss = ss' ∧ o = o' ∧ C.Opens w c n ss o
  Seen _ := True
  Defines _ _ := True
  Varies := C.Varies
  Declares := True
  Seeks _ := True
  closure_later hl h := ⟨h.1, C.good_later hl h.2⟩
  module_later _ h := h
  sites_later hl h := ⟨h.1, C.serves_later hl h.2⟩
  code_later hl h := ⟨h.1, C.code_later hl h.2⟩
  decl_later hl h := ⟨h.1, h.2.1, C.code_later hl h.2.2⟩
  body_later hl h := ⟨h.1, h.2.1, h.2.2.1, h.2.2.2.later hl⟩
  code_site h := ⟨congrArg Context.site h.1, C.code_site h.2⟩
  code_part h ht := ⟨h.1, C.code_part h.2 (Stmt.mem_parts_of_inPlace ht)⟩
  enter := by
    rintro w c _ s f f' ⟨rfl, hc⟩ hs hf
    obtain ⟨rfl, hgood⟩ := hf.only
    exact (keeps_enter hc hs hgood).agree fun _ _ _ hd t ht => ⟨rfl, hd t ht⟩
  arities := by
    rintro _ _ _ ⟨rfl, -⟩
    rfl
  variant := by
    rintro w a _ ⟨rfl, ha⟩ n
    cases hv : a.variant? n with
    | none => exact .none
    | some v =>
      refine .some ⟨rfl, rfl, ?_⟩
      rintro s _ f f' ⟨rfl, hs⟩ hf
      obtain ⟨rfl, hgood⟩ := hf.only
      have hmem : v ∈ a.variants := List.mem_of_find?_eq_some hv
      exact (keeps_call ha hmem hs hgood).agree fun _ _ _ hd => ⟨rfl, hd⟩
  name := by
    rintro w c _ l n ⟨rfl, -⟩
    exact (keeps_resolve w c n).agree fun _ _ _ hv => hv
  dotted := by
    rintro w c _ l ns ⟨rfl, -⟩
    exact (keeps_dotted w c ns).agree fun _ _ _ hv => hv
  define := by
    rintro w c _ s n isPublic v v' - ⟨rfl, hc⟩ - hv
    have hvalid := Value.carries_of_only hv
    obtain rfl := Value.eq_of_only hv
    exact (keeps_define hc n hvalid isPublic).agree fun _ _ _ _ => trivial
  lambda := by
    rintro w c _ l n ps body ⟨rfl, hc⟩
    exact (keeps_lambda hc).agree fun _ _ _ hv => hv
  vary := by
    rintro w c _ l n l' ps body hvaries ⟨rfl, hc⟩
    exact (keeps_vary hvaries hc).agree fun _ _ _ hv => hv
  module := by
    rintro w c _ l isPublic n body - ⟨rfl, hc⟩
    exact (keeps_openModule hc).agree fun _ _ _ ho => ⟨rfl, rfl, rfl, ho⟩
  write := by
    intro w t
    have hwrite : C.Keeps w (fun _ _ => True) (Eval.write t) :=
      fun m hm => .inl ⟨_, _, w, rfl, C.later_refl w, C.change hm .write, trivial⟩
    exact hwrite.agree fun _ _ _ _ => trivial
  readLine := by
    intro w
    have hread : C.Keeps w C.Valid Eval.readLine := by
      intro m hm
      have hline : ∀ (b : Bool) (t : Text),
          (if b = true then Value.unit else .text t).isPlain = true := fun b t => by cases b <;> rfl
      exact .inl ⟨_, _, w, rfl, C.later_refl w, C.change hm .read, Value.carries_plain (hline _ _)⟩
    exact hread.agree fun _ _ _ hv => hv
  declared := by
    rintro w c s _ _ ⟨rfl, rfl, hc⟩
    exact .same ⟨rfl, hc⟩
  apart_work := False.elim
  body_module := by
    rintro w c n ss o _ _ _ ⟨rfl, rfl, rfl, -⟩
    exact ⟨rfl, rfl⟩
  body_members := by
    rintro w c n ss o _ _ _ ⟨rfl, rfl, rfl, ho⟩
    refine (keeps_members ho).agree fun w' _ _ hcode => ?_
    exact List.forall₂_same.mpr fun s hs => ⟨rfl, rfl, hcode s hs⟩
  body_restore := by
    rintro w c n ss o _ _ _ m _ ⟨rfl, rfl, rfl, ho⟩ ⟨rfl, hm⟩
    exact ⟨w, C.later_refl w, rfl, fits_restore ho hm⟩

/-! ## Conditions on the machine alone -/

/-- A condition that everything that evaluation does to the machine keeps, files left out. -/
structure Lasts (K : Machine → Prop) : Prop where
  change : ∀ {m m'}, K m → m.Change (fun _ => True) (fun _ => True) m' → K m'
  pushFrame : ∀ {m} f, K m → K (m.pushFrame f)
  newFunction : ∀ {m}, K m → K { m with functions := m.functions + 1 }
  register : ∀ {m} p parent, K m →
    K { m with records := m.records.push { path := p, parent := parent },
               registry := m.registry ++ [(p, m.records.size)] }

/-- Nothing is said but that the condition lasts. -/
def ofLasting {K : Machine → Prop} (hK : Lasts K) : Conduct where
  World := Unit
  Later _ _ := True
  later_refl _ := trivial
  later_trans _ _ := trivial
  Fits _ := K
  Good _ _ := True
  Serves _ _ := True
  Code _ _ _ := True
  Here _ _ := True
  Varies := True
  good_later _ h := h
  serves_later _ h := h
  code_later _ h := h
  here_later _ h := h
  code_site _ := trivial
  code_part _ _ := trivial
  holds _ := Machine.holds_of_all (Value.carries_of_all fun _ => trivial) _
  writable _ _ := ⟨trivial, fun _ _ => trivial, fun _ => trivial⟩
  erasable _ _ _ := trivial
  change hm hc := hK.change hm (hc.mono (fun _ _ => trivial) fun _ _ => trivial)
  enter hm _ _ _ := ⟨⟨⟩, trivial, hK.pushFrame _ hm, fun _ _ => trivial⟩
  call hm _ _ _ _ := ⟨⟨⟩, trivial, hK.pushFrame _ hm, trivial⟩
  lambda hm _ := ⟨⟨⟩, trivial, hK.newFunction hm, trivial⟩
  vary _ hm _ _ _ _ :=
    ⟨⟨⟩, trivial, hK.newFunction hm, trivial, fun _ _ => trivial, fun _ => trivial,
      fun _ _ => trivial⟩
  register hm _ hr := by
    obtain ⟨-, -, -, rfl⟩ := Machine.register_eq_ok hr
    exact ⟨⟨⟩, trivial, hK.register _ _ hm, trivial, trivial⟩
  enterModule hm _ _ _ _ _ := ⟨⟨⟩, trivial, hK.pushFrame _ hm,
    .of_code (fun _ => trivial) (fun _ _ => trivial) fun _ _ => trivial⟩

end Conduct

end ModuleScript
