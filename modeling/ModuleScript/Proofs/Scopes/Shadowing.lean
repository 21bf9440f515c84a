import ModuleScript.Proofs.Scopes.Effects
import ModuleScript.Proofs.Watch

/-!
# Shadowing never changes an outer binding

The evaluation of a node in a scope leaves alone every frame that there was before, the innermost one
of the scope apart, and every module record but the one attached to that frame. Names found there are
those bound before, with the values they had. Only functions may get more variants, and only by a
statement that adds one.
-/

set_option autoImplicit false

namespace ModuleScript

open Eval

namespace Scopes

variable {R : Slot → Slot → Prop} {id : FrameId} {m₀ : Machine}

/-- Both runs are one run, which has kept what lies outside a frame. -/
abbrev worlds (R : Slot → Slot → Prop) (id : FrameId) (m₀ : Machine) : Worlds where
  World := Unit
  Later _ _ := True
  later_refl _ := trivial
  later_trans _ _ := trivial
  Machines _ m n := m = n ∧ Machine.Kept R id m₀ m

variable {α β : Type} {w : Unit}

/-- A computation that yields one thing and keeps what lies outside the frame. -/
def Keeps (R : Slot → Slot → Prop) (id : FrameId) (m₀ : Machine) (P : α → Prop) (x : Eval α) :
    Prop :=
  ∀ m, Machine.Kept R id m₀ m →
    (∃ a m', x m = .ok a m' ∧ Machine.Kept R id m₀ m' ∧ P a) ∨
      ∃ e m', x m = .error e m' ∧ Machine.Kept R id m₀ m'

theorem Keeps.agree {P : α → Prop} {Q : Unit → α → α → Prop} {x : Eval α}
    (hx : Keeps R id m₀ P x) (hQ : ∀ a, P a → Q ⟨⟩ a a) : (worlds R id m₀).Agree w Q x x := by
  rintro m _ ⟨rfl, hm⟩
  rcases hx m hm with ⟨a, m', he, hm', ha⟩ | ⟨e, m', he, hm'⟩
  · rw [he]
    exact .ok trivial ⟨rfl, hm'⟩ (hQ a ha)
  · have hend : (worlds R id m₀).Machines ⟨⟩ m' m' := ⟨rfl, hm'⟩
    rw [he]
    exact .error trivial hend

theorem keeps_reads {x : Eval α} (hx : Reads x) : Keeps R id m₀ (fun _ => True) x := by
  intro m hm
  rcases hx m with ⟨a, ha⟩ | ⟨e, he⟩
  · exact .inl ⟨a, m, ha, hm, trivial⟩
  · exact .inr ⟨e, m, he, hm⟩

theorem keeps_modify {f : Machine → Machine}
    (hf : ∀ m, Machine.Kept R id m₀ m → Machine.Kept R id m₀ (f m)) :
    Keeps R id m₀ (fun _ => True) (modify f) :=
  fun m hm => .inl ⟨⟨⟩, f m, rfl, hf m hm, trivial⟩

theorem keeps_change {f : Machine → Except Failure Machine}
    (hf : ∀ m m', f m = .ok m' → m'.frames = m.frames ∧ m'.records = m.records) :
    Keeps R id m₀ (fun _ => True) (change f) := by
  intro m hm
  unfold change
  cases he : f m with
  | error e => exact .inr ⟨e, m, rfl, hm⟩
  | ok m' =>
    obtain ⟨hframes, hrecords⟩ := hf m m' he
    exact .inl ⟨⟨⟩, m', rfl, hm.of_eq hframes hrecords, trivial⟩

theorem Keeps.bind {P : α → Prop} {Q : β → Prop} {x : Eval α} {f : α → Eval β}
    (hx : Keeps R id m₀ P x) (hf : ∀ a, P a → Keeps R id m₀ Q (f a)) :
    Keeps R id m₀ Q (x >>= f) := by
  intro m hm
  rcases hx m hm with ⟨a, m', he, hm', ha⟩ | ⟨e, m', he, hm'⟩
  · rw [bind_of_ok he]
    exact hf a ha m' hm'
  · exact .inr ⟨e, m', bind_of_error he, hm'⟩

theorem keeps_pure {P : α → Prop} {a : α} (ha : P a) : Keeps R id m₀ P (pure a) :=
  fun m hm => .inl ⟨a, m, rfl, hm, ha⟩

theorem keeps_forM {f : α → Eval PUnit} {xs : List α}
    (hf : ∀ a ∈ xs, Keeps R id m₀ (fun _ => True) (f a)) :
    Keeps R id m₀ (fun _ => True) (xs.forM f) := by
  induction xs with
  | nil => exact keeps_pure trivial
  | cons a xs ih =>
    have hrest := ih fun y hy => hf y (.tail _ hy)
    exact (hf a (.head _)).bind fun _ _ => hrest

/-- A context whose own frame is open to changes. -/
def Inside (id : FrameId) (m₀ : Machine) (c : Context) : Prop :=
  Machine.Open id m₀ c.scope.frame

theorem keeps_enter (c : Context) {f : Frame}
    (hf : ∀ r, f.record = some r → m₀.records.size ≤ r) :
    Keeps R id m₀ (Inside id m₀) (c.enter f) :=
  fun _ hm => .inl ⟨_, _, rfl, hm.pushFrame hf, .inr hm.frames_size⟩

theorem keeps_define {c : Context} (hc : Inside id m₀ c) (n : Ident) (v : Value)
    (isPublic : Bool) : Keeps R id m₀ (fun _ => True) (define c n v isPublic) := by
  intro m hm
  obtain ⟨m', he, hm'⟩ := hm.define hc n v isPublic
  exact .inl ⟨⟨⟩, m', he, hm', trivial⟩

theorem keeps_newClosure (n : Option Ident) (vs : List Variant) :
    Keeps R id m₀ (fun _ => True) (newClosure n vs) :=
  fun _ hm => .inl ⟨_, _, rfl, hm.of_eq rfl rfl, trivial⟩

theorem keeps_vary (c : Context) (n : Ident) (variant : Variant)
    (hR : ∀ {f g : Closure}, f.Extends g → ∀ s, R s (.value (.closure f)) →
      R s (.value (.closure g))) :
    Keeps R id m₀ (fun _ => True) (vary c n variant) := by
  intro m hm
  unfold vary
  rcases reads_resolve c n m with ⟨⟨r, v⟩, he⟩ | ⟨e, he⟩
  · rw [bind_of_ok he]
    obtain ⟨-, hl, hs, -⟩ := resolve_eq_ok he
    cases v with
    | closure f =>
      dsimp only
      split
      · exact .inr ⟨_, m, rfl, hm⟩
      · have hext := f.extends_append m.functions [variant]
        have hm₁ : Machine.Kept R id m₀ { m with functions := m.functions + 1 } :=
          hm.of_eq rfl rfl
        obtain ⟨m', he', hm'⟩ := hm₁.replace (c := c) (hR hext) hl hs
        have hnew : newClosure f.name (f.variants ++ [variant]) m = .ok _ _ := rfl
        refine .inl ⟨.closure ⟨m.functions, f.name, f.variants ++ [variant]⟩, m', ?_, hm', trivial⟩
        rw [bind_of_ok hnew, bind_of_ok he']
        rfl
    | _ => exact .inr ⟨_, m, rfl, hm⟩
  · exact .inr ⟨e, m, bind_of_error he, hm⟩

theorem keeps_register (c : Context) (n : Ident) :
    Keeps R id m₀ (fun r => m₀.records.size ≤ r.1) (register c n) := by
  intro m hm
  rcases hm.register (c := c) n with ⟨r, p, o, m', he, hr, hm'⟩ | ⟨e, he⟩
  · exact .inl ⟨(r, p, o), m', he, hm', hr⟩
  · exact .inr ⟨e, m, he, hm⟩

theorem keeps_openModule {c : Context} (hc : Inside id m₀ c) (isPublic : Bool) (n : Ident) :
    Keeps R id m₀ (fun o => m₀.records.size ≤ o.id ∧ Inside id m₀ o.inner)
      (openModule c isPublic n) := by
  refine (keeps_register c n).bind fun ⟨r, p, isOutermost⟩ hr => ?_
  have hget : Keeps R id m₀ (fun _ => True) (get : Eval Machine) :=
    fun m hm => .inl ⟨m, m, rfl, hm, trivial⟩
  refine hget.bind fun m _ => ?_
  refine (keeps_define hc n (.module r p) (isPublic || isOutermost)).bind fun _ _ => ?_
  have hrecord : ∀ i, some r = some i → m₀.records.size ≤ i := by
    rintro _ ⟨⟩
    exact hr
  refine (keeps_enter c hrecord).bind fun inner hi => ?_
  exact keeps_pure ⟨hr, hi⟩

theorem keeps_declareMembers {r : RecordId} (hr : m₀.records.size ≤ r) (ss : List Stmt) :
    Keeps R id m₀ (fun _ => True) (declareMembers r ss) := by
  refine keeps_forM ?_
  rintro ⟨n, v⟩ - m hm
  rcases hm.declareMember hr n v with ⟨m', he, hm'⟩ | ⟨e, he⟩
  · exact .inl ⟨⟨⟩, m', he, hm', trivial⟩
  · exact .inr ⟨e, m, he, hm⟩

theorem keeps_openFile (path : Path) :
    Keeps R id m₀ (fun s => Machine.Open id m₀ s.globals) (openFile path) := by
  intro m hm
  have hm₁ := hm.pushFrame (f := { name := "global " ++ path.name }) fun _ hr => by cases hr
  exact .inl ⟨_, _, rfl, hm₁.of_eq rfl rfl, .inr hm.frames_size⟩

/-- One run beside itself: every action keeps what lies outside the frame, and if `varies`, functions
may get more variants, which `R` must allow. -/
def simulation (h : Host) (R : Slot → Slot → Prop) (varies : Prop)
    (hR : varies → ∀ {f g : Closure}, f.Extends g → ∀ s, R s (.value (.closure f)) →
      R s (.value (.closure g)))
    (id : FrameId) (m₀ : Machine) : Simulation h where
  toWorlds := worlds R id m₀
  like _ := .identity
  Sites _ s s' := s = s'
  Code _ c c' _ := c = c' ∧ Inside id m₀ c
  Decl _ c s c' s' := c = c' ∧ s = s' ∧ Inside id m₀ c
  Apart _ _ _ _ _ := False
  Body _ c _ ss o c' ss' o' :=
    c = c' ∧ ss = ss' ∧ o = o' ∧ Inside id m₀ c ∧ m₀.records.size ≤ o.id ∧ Inside id m₀ o.inner
  Seen _ := True
  Defines _ _ := True
  Varies := varies
  Declares := True
  Seeks _ := True
  closure_later _ h := h
  module_later _ h := h
  sites_later _ h := h
  code_later _ h := h
  decl_later _ h := h
  body_later _ h := h
  site_source hs := congrArg Site.source hs
  code_site hc := congrArg Context.site hc.1
  code_part hc _ := hc
  enter := by
    rintro w c _ s f f' ⟨rfl, hc⟩ - hf
    obtain rfl := hf.eq Likeness.identity_eq
    refine (keeps_enter c fun r hr => ?_).agree fun d hd t _ => ⟨rfl, hd⟩
    rw [hf.record] at hr
    cases hr
  arities := by
    rintro _ _ _ rfl
    rfl
  variant := by
    rintro w a _ rfl n
    cases a.variant? n with
    | none => exact .none
    | some v =>
      refine .some ⟨rfl, rfl, ?_⟩
      rintro s _ f f' rfl hf
      obtain rfl := hf.eq Likeness.identity_eq
      refine (keeps_enter _ fun r hr => ?_).agree fun d hd => ⟨rfl, hd⟩
      rw [hf.record] at hr
      cases hr
  name := by
    rintro w c _ l n ⟨rfl, -⟩
    exact (keeps_reads (reads_resolve c n)).agree fun a _ => Likeness.identity_refl a.2
  dotted := by
    rintro w c _ l ns ⟨rfl, -⟩
    exact (keeps_reads (reads_dotted c ns)).agree fun a _ => Likeness.identity_refl a
  define := by
    rintro w c _ s n isPublic v v' - ⟨rfl, hc⟩ - hv
    obtain rfl := Likeness.identity_eq hv
    exact (keeps_define hc n v isPublic).agree fun _ _ => trivial
  lambda := by
    rintro w c _ l n ps body ⟨rfl, -⟩
    exact (keeps_newClosure n _).agree fun a _ => Likeness.identity_refl a
  vary := by
    rintro w c _ l n l' ps body hv ⟨rfl, -⟩
    exact (keeps_vary c n _ (hR hv)).agree fun a _ => Likeness.identity_refl a
  module := by
    rintro w c _ l isPublic n body - ⟨rfl, hc⟩
    exact (keeps_openModule hc isPublic n).agree fun o ho => ⟨rfl, rfl, rfl, hc, ho⟩
  write t := (keeps_modify (f := (·.write t)) fun _ hm => hm.of_eq rfl rfl).agree fun _ _ => trivial
  readLine := by
    intro w
    have hread : Keeps R id m₀ (fun _ => True) readLine :=
      fun _ hm => .inl ⟨_, _, rfl, hm.of_eq rfl rfl, trivial⟩
    exact hread.agree fun a _ => Likeness.identity_refl a
  declared := by
    rintro w c s _ _ ⟨rfl, rfl, hc⟩
    exact .same ⟨rfl, hc⟩
  apart_work := False.elim
  body_module := by
    rintro w c n ss o _ _ _ ⟨rfl, rfl, rfl, -⟩
    exact ⟨rfl, rfl⟩
  body_members := by
    rintro w c n ss o _ _ _ ⟨rfl, rfl, rfl, -, ho, hinner⟩
    refine (keeps_declareMembers ho ss).agree fun _ _ => ?_
    exact List.forall₂_same.mpr fun _ _ => ⟨rfl, rfl, hinner⟩
  body_restore := by
    rintro w c n ss o _ _ _ m _ ⟨rfl, rfl, rfl, hc, -⟩ ⟨rfl, hm⟩
    have hremoved : Machine.Kept R id m₀ (m.removeModule o.path) := hm.of_eq rfl rfl
    exact ⟨⟨⟩, trivial, rfl, hremoved.restore hc n o.old⟩
  loaded := by
    rintro w m _ p - ⟨rfl, -⟩
    cases m.loaded? p with
    | none => exact .none
    | some e => exact .some (Likeness.exported_identity e)
  begin_loading := by
    intro w p
    refine (keeps_change fun m m' hm => ?_).agree fun _ _ => trivial
    obtain ⟨-, rfl⟩ := Machine.beginLoading_eq_ok hm
    exact ⟨rfl, rfl⟩
  abort_loading := by
    rintro w m _ p ⟨rfl, hm⟩
    exact ⟨⟨⟩, trivial, rfl, hm.of_eq rfl rfl⟩
  finish_loading := by
    intro w e e' p he
    have hee : e = e' := he.eq fun _ _ _ => Likeness.identity_eq
    subst hee
    refine (keeps_change fun m m' hm => ?_).agree fun _ _ => trivial
    obtain ⟨-, rfl⟩ := Machine.finishLoading_eq_ok hm
    exact ⟨rfl, rfl⟩
  file := by
    intro w p t program _ _ _
    exact (keeps_openFile p).agree fun s hs => ⟨rfl, fun st _ => ⟨rfl, rfl, hs⟩⟩
  exports := by
    rintro w s _ m _ rfl ⟨rfl, -⟩
    exact Likeness.exported_identity _

theorem endOf_kept {P : Unit → α → β → Prop} {r : EStateM.Result Failure Machine α}
    {r' : EStateM.Result Failure Machine β} (h : (worlds R id m₀).Ends w P r r') :
    Machine.Kept R id m₀ (endOf r) := by
  obtain ⟨_, -, -, hm⟩ := h.machines
  exact hm

/-- Any run beside itself, with functions that may get more variants. -/
abbrev extending (h : Host) (id : FrameId) (m₀ : Machine) : Simulation h :=
  simulation h Slot.Extends True (fun _ _ _ hfg _ hs => hs.then hfg) id m₀

theorem extending_follows (h : Host) (depth : Nat) :
    (extending h id m₀).Follows (run h depth) (run h depth) :=
  Simulation.run_follows (S := extending h id m₀) (fun _ _ => ⟨trivial, .inl trivial, .inl trivial⟩)
    (fun _ => trivial) (fun _ _ _ _ _ _ _ ha => False.elim ha) depth

theorem run_keeps (h : Host) (depth : Nat) (c : Context) (s : Stmt) (m : Machine) :
    Machine.Kept Slot.Extends c.scope.frame m (endOf (run h depth (.eval c s) m)) := by
  have hcode : (extending h c.scope.frame m).Code ⟨⟩ c c s := ⟨rfl, .inl rfl⟩
  exact endOf_kept ((extending_follows h depth).code hcode m m ⟨rfl, Machine.kept_refl .refl _ m⟩)

theorem apply_keeps (h : Host) (depth : Nat) (s : Site) (f : Value) (args : List Value) {m : Machine}
    (hm : Machine.Kept Slot.Extends id m₀ m) :
    Machine.Kept Slot.Extends id m₀ (endOf (run h depth (.apply s f args) m)) := by
  have hargs : List.Forall₂ Likeness.identity.Matches args args :=
    List.forall₂_same.mpr fun v _ => Likeness.identity_refl v
  have hfollows : (extending h id m₀).Follows (run h depth) (run h depth) := extending_follows h depth
  exact endOf_kept (hfollows.apply (w := ⟨⟩) rfl (Likeness.identity_refl f) hargs m m ⟨rfl, hm⟩)

theorem watched_keeps (h : Host) (depth : Nat) (c : Context) (s : Stmt) (m : Machine) :
    Machine.Kept Eq c.scope.frame m
      (endOf (watched h (fun t _ => t.isVariation = false) (fun _ => throw .tooDeep) depth
        (.eval c s) m)) := by
  let S := simulation h Eq False (fun hv => hv.elim) c.scope.frame m
  let check : Task → Machine → Prop := fun t _ => t.isVariation = false
  let alarm : Step := fun _ => throw .tooDeep
  have hall : ∀ d, S.Follows (watched h check alarm d) (watched h check alarm d) := by
    intro d
    induction d with
    | zero => exact Actions.follows_tooDeep _ _ (fun _ => rfl) fun _ => rfl
    | succ d ih =>
      have heval : ∀ {w : S.World} {c : Context} {s : Stmt}, S.Code w c c s →
          S.Agree w S.Values (watched h check alarm (d + 1) (.eval c s))
            (watched h check alarm (d + 1) (.eval c s)) := by
        intro w c s hc m n hm
        by_cases hv : s.isVariation = false
        · have hcheck : ∀ m, check (.eval c s) m := fun _ => hv
          rw [watched_of_check (hcheck m), watched_of_check (hcheck n)]
          exact Actions.code_agrees ih (fun o => Simulation.loads (fun _ => trivial) (ih.below h o)) hc
            ⟨trivial, .inr hv, .inl trivial⟩ m n hm
        · have hcheck : ∀ m, ¬ check (.eval c s) m := fun _ => hv
          rw [watched_of_not_check (hcheck m), watched_of_not_check (hcheck n)]
          exact Worlds.agree_throw _ m n hm
      -- tasks other than nodes pass the check
      have hother : ∀ {t}, t.isVariation = false →
          watched h check alarm (d + 1) t = step h (watched h check alarm d) t :=
        fun {t} ht => funext fun m => watched_of_check (show check t m from ht) alarm d
      have hattends : S.Attends (watched h check alarm (d + 1)) (watched h check alarm (d + 1)) := by
        refine ⟨?_, ?_, ?_, ?_⟩
        · rintro w c _ s ⟨rfl, hc⟩
          exact heval ⟨rfl, hc⟩
        · rintro w c s _ _ ⟨rfl, rfl, hc⟩
          exact (heval ⟨rfl, hc⟩).imp fun _ _ _ _ hx _ => hx
        · intro w s s' f f' args args' hs hf hargs
          rw [hother rfl, hother rfl]
          exact Actions.apply_step_agrees ih hs hf hargs
        · intro w t
          rw [hother rfl]
          exact Actions.ask_agrees h _ _ t
      refine hattends.follows (fun t _ => ?_) ih
      rw [hother rfl]
      exact ⟨rfl, rfl⟩
  have hcode : S.Code ⟨⟩ c c s := ⟨rfl, .inl rfl⟩
  exact endOf_kept ((hall depth).code hcode m m ⟨rfl, Machine.kept_refl (fun _ => rfl) _ m⟩)

/-- Whatever a node does and however it ends, the frames and records that there were before, but for
the frame it runs in and the record attached to it, have the names they had, bound to the values they
were bound to or to functions with more variants; to the same values if no variant was added. -/
theorem outer_bindings_kept (h : Host) (depth : Nat) (c : Context) (s : Stmt) (m : Machine) :
    Machine.Kept Slot.Extends c.scope.frame m (endOf (run h depth (.eval c s) m)) ∧
      (Throughout h depth (fun t _ => t.isVariation = false) (fun self => self (.eval c s)) m →
        (∀ i < m.frames.size, i ≠ c.scope.frame →
          (endOf (run h depth (.eval c s) m)).frame i = m.frame i) ∧
        ∀ r < m.records.size, (m.frame c.scope.frame).record ≠ some r →
          (endOf (run h depth (.eval c s) m)).record r = m.record r) := by
  refine ⟨run_keeps h depth c s m, fun hnone => ?_⟩
  have hkept := watched_keeps h depth c s m
  rw [show watched h _ _ depth (.eval c s) m = run h depth (.eval c s) m from hnone _] at hkept
  exact ⟨fun i hi hne => (hkept.frame i hi hne).eq, fun r hr hne => (hkept.record r hr hne).eq⟩

end Scopes

end ModuleScript
