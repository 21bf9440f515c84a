import ModuleScript.Proofs.Conduct.Sessions
import ModuleScript.Proofs.Modules.Runs
import ModuleScript.Proofs.Scopes.Shadowing

/-!
# Modules that fail

However a module at the top of a source fails, its name means again what it meant before, in the
source's frame and among its exports, and of the modules that are registered those below the failed
one are gone while all others are what they were.
-/

set_option autoImplicit false

namespace ModuleScript

open Eval Session

/-- Code at the top of a source: it runs in the source's own frame, which belongs to no module. -/
structure Context.AtTop (c : Context) (m : Machine) : Prop where
  own : c.scope.frame = c.site.globals
  outside : (m.frame c.scope.frame).record = none

/-- What there is of a module of this name after it has failed is what there was before. -/
structure Machine.RolledBack (c : Context) (n : Ident) (m m' : Machine) : Prop where
  binding : (m'.frame c.scope.frame).bindings.get? n = (m.frame c.scope.frame).bindings.get? n
  exported : (m'.exportsOf c.site.exports).get? n = (m.exportsOf c.site.exports).get? n
  registered : ∀ {p i}, m.module? p = some i → m'.module? p = some i
  record : ∀ {p i}, m.module? p = some i → (m.record i).Kept Slot.Extends (m'.record i)
  dropped : ∀ {p}, (m.pathFor c n).within p = true → m'.module? p = m.module? p

namespace Rollback

variable {h : Host} {m m' : Machine} {c : Context} {n : Ident}

/-! ## Tables of exports are never dropped -/

/-- There are at least so many tables of exports. -/
theorem tables_last (size : Nat) : Conduct.Lasts fun m => size ≤ m.exports.size where
  change hm hc := by
    rw [hc.exports_size]
    exact hm
  pushFrame _ hm := hm
  newFunction hm := hm
  register _ _ hm := hm

theorem tables_files (size : Nat) (h : Host) : (Conduct.ofLasting (tables_last size)).Files h where
  setLoading _ hm := hm
  setLoaded _ _ hm _ := hm
  openFile {w m p t program} hm _ _ _ := by
    refine ⟨⟨⟩, trivial, ?_, trivial, fun _ _ => trivial⟩
    change size ≤ (m.exports.push []).size
    rw [Array.size_push]
    exact Nat.le_succ_of_le hm

theorem exports_size_run (h : Host) (depth : Nat) (t : Task) (m : Machine) :
    m.exports.size ≤ (endOf (run h depth t m)).exports.size := by
  have ht : (Conduct.ofLasting (tables_last m.exports.size)).Allows ⟨⟩ t := by
    induction t with
    | wait t ih => exact ih
    | eval | ask => trivial
    | apply site f args =>
      exact ⟨trivial, Value.carries_of_all (fun _ => trivial) f,
        fun v _ => Value.carries_of_all (fun _ => trivial) v⟩
  obtain ⟨_, -, hm⟩ := Conduct.run_fits (tables_files m.exports.size h).imports trivial
    (Nat.le_refl m.exports.size) ht depth
  exact hm

/-! ## What is restored -/

theorem openModule_eq_ok {isPublic : Bool} {o : Opened} (ho : openModule c isPublic n m = .ok o m') :
    m.module? (m.pathFor c n) = none ∧ o.path = m.pathFor c n ∧ o.old = previous c n m := by
  unfold openModule at ho
  cases hr : Eval.register c n m with
  | error e k =>
    rw [bind_of_error hr] at ho
    cases ho
  | ok r k =>
    obtain ⟨i, p, isOutermost⟩ := r
    obtain ⟨hp, hnone, -, rfl⟩ := Machine.register_eq_ok hr
    rw [bind_of_ok hr] at ho
    cases ho
    exact ⟨hp ▸ hnone, hp, rfl⟩

/-- A declaration that fails has changed nothing, or the module is dropped and its name restored. -/
theorem failed_cases {depth : Nat} {l : Location} {isPublic : Bool} {body : List Stmt} {e : Failure}
    (he : run h depth (.eval c (.module l isPublic n body)) m = .error e m') :
    m' = m ∨ m.module? (m.pathFor c n) = none ∧
      ∃ k, m' = restore c n (previous c n m) (Machine.removeModule k (m.pathFor c n)) := by
  cases depth with
  | zero =>
    cases he
    exact .inl rfl
  | succ depth =>
    obtain ⟨e', he'⟩ := located_eq_error he
    change declareModule ((run h depth).below h (.node .module l)) c isPublic n body m =
      .error e' m' at he'
    unfold declareModule at he'
    rcases Invariant.openModule_cases c isPublic n m with ⟨o, k, ho⟩ | ⟨f, hf⟩
    · obtain ⟨hnone, hpath, hold⟩ := openModule_eq_ok ho
      rw [bind_of_ok ho] at he'
      obtain ⟨k', -, hk'⟩ := mending_eq_error he'
      rw [hpath, hold] at hk'
      exact .inr ⟨hnone, k', hk'⟩
    · rw [bind_of_error hf] at he'
      cases he'
      exact .inl rfl

section Restore

variable {old : Previous} {k : Machine}

theorem registry_restore (c : Context) (n : Ident) (old : Previous) (k : Machine) :
    (restore c n old k).registry = k.registry := by
  unfold restore
  split
  · rfl
  · cases old.slot <;> cases old.exported <;> dsimp only <;> split <;> rfl

theorem changes_restore (c : Context) (n : Ident) (old : Previous) (k : Machine) :
    k.Changes (fun _ => True) (fun _ => True) (restore c n old k) :=
  Machine.restore_changes ⟨trivial, fun _ _ => trivial, fun _ => trivial⟩ (fun _ => trivial)
    (fun _ _ => trivial) fun _ _ => trivial

theorem binding_restore (hout : (k.frame c.scope.frame).record = none)
    (hf : c.scope.frame < k.frames.size) :
    ((restore c n old k).frame c.scope.frame).bindings.get? n = old.slot := by
  obtain ⟨slot, exported⟩ := old
  unfold restore
  rw [hout]
  cases slot <;> cases exported <;> dsimp only <;> split <;>
    simp [Machine.frame, Machine.eraseSlot, Machine.setSlot, Machine.eraseExport,
      Machine.setExport, hf, Array.getElem_modify, Bindings.get?_set, Bindings.get?_erase]

theorem exported_restore (hown : c.scope.frame = c.site.globals)
    (hout : (k.frame c.scope.frame).record = none)
    (hx : ∀ v, old.exported = some v → c.site.exports < k.exports.size) :
    ((restore c n old k).exportsOf c.site.exports).get? n = old.exported := by
  obtain ⟨slot, exported⟩ := old
  unfold restore
  rw [hout]
  dsimp only
  rw [if_pos hown]
  cases exported with
  | none =>
    have herase : ∀ q : Machine,
        ((q.eraseExport c.site.exports n).exportsOf c.site.exports).get? n = none := by
      intro q
      unfold Machine.exportsOf Machine.eraseExport
      rcases Nat.lt_or_ge c.site.exports q.exports.size with hlt | hge
      · simp [hlt, Array.getElem_modify, Bindings.get?_erase]
      · simp [hge]
        rfl
    exact herase _
  | some v =>
    have hsize := hx v rfl
    cases slot <;>
      simp [Machine.setExport, Machine.exportsOf, Machine.eraseSlot, Machine.setSlot, hsize,
        Array.getElem_modify, Bindings.get?_set]

end Restore

/-! ## Failed declarations -/

theorem rolledBack_of_error (hm : m.WellFormed) (hc : m.Hosts c.scope.frame) (htop : c.AtTop m)
    {depth : Nat} {l : Location} {isPublic : Bool} {body : List Stmt} {e : Failure}
    (he : run h depth (.eval c (.module l isPublic n body)) m = .error e m') :
    m.RolledBack c n m' := by
  have hend : endOf (run h depth (.eval c (.module l isPublic n body)) m) = m' := by rw [he]; rfl
  have hsound := ModuleTable.sound_self hm
  have hfits : (ModuleTable.invariant m).Fits m (.eval c (.module l isPublic n body)) := fun _ => hc
  obtain ⟨-, -, hkept⟩ := ModuleTable.kept_of_sound h hsound hfits
  obtain ⟨-, hwell, hretains⟩ := hkept depth
  have hslots := Scopes.run_keeps h depth c (.module l isPublic n body) m
  have htables := exports_size_run h depth (.eval c (.module l isPublic n body)) m
  rw [hend] at hwell hretains hslots htables
  have hregistered : ∀ {p i}, m.module? p = some i → m'.module? p = some i := fun hp =>
    hwell.module?_eq (hretains.registered (Machine.mem_registry_of_module? hp))
  have hrecord : ∀ {p i}, m.module? p = some i → (m.record i).Kept Slot.Extends (m'.record i) := by
    intro p i hp
    refine hslots.record i (hm.stored (Machine.mem_registry_of_module? hp)).1 ?_
    rw [htop.outside]
    exact fun hi => by cases hi
  rcases failed_cases he with rfl | ⟨hnone, k, hk⟩
  · exact ⟨rfl, rfl, hregistered, hrecord, fun _ => rfl⟩
  have hchanges := changes_restore c n (previous c n m) (k.removeModule (m.pathFor c n))
  rw [← hk] at hchanges
  have hout : ((k.removeModule (m.pathFor c n)).frame c.scope.frame).record = none := by
    rw [← hchanges.attached, hretains.attached _ hc.frame, htop.outside]
  refine ⟨?_, ?_, hregistered, hrecord, fun {p} hp => ?_⟩
  · rw [hk, binding_restore hout]
    · rfl
    · rw [← hchanges.frames_size]
      exact Nat.lt_of_lt_of_le hc.frame hretains.frames
  · rw [hk, exported_restore htop.own hout]
    · rfl
    · intro v hv
      rw [← hchanges.exports_size]
      exact Nat.lt_of_lt_of_le (Machine.lt_exports_size hv) htables
  · have hgone : m'.module? p = none := by
      refine Machine.module?_eq_none fun i hi => ?_
      rw [hk, registry_restore] at hi
      simp [Machine.removeModule, hp] at hi
    rw [hgone]
    refine (Machine.module?_eq_none fun i hi => ?_).symm
    obtain ⟨j, hj⟩ := hm.above hi (Machine.pathFor_names m c n) hp
    exact Machine.notMem_registry_of_module? hnone j hj

/-! ## Sources' own frames -/

/-- The frames in the world belong to no module, nor do the frames of a session. -/
structure Outside (w : FrameId → Prop) (m : Machine) : Prop where
  size : 3 ≤ m.frames.size
  frame : ∀ i, w i ∨ i < 3 → i < m.frames.size ∧ (m.frame i).record = none

theorem Outside.pushFrame {w : FrameId → Prop} (hm : Outside w m) (f : Frame) :
    Outside w (m.pushFrame f) := by
  have hsize : (m.pushFrame f).frames.size = m.frames.size + 1 := by simp [Machine.pushFrame]
  refine ⟨hsize ▸ Nat.le_succ_of_le hm.size, fun i hi => ?_⟩
  obtain ⟨hlt, hrecord⟩ := hm.frame i hi
  rw [Machine.frame_pushFrame m f hlt]
  exact ⟨hsize ▸ Nat.lt_succ_of_lt hlt, hrecord⟩

/-- Functions and code serve sources whose own frames belong to no module. -/
def outside : Conduct where
  World := FrameId → Prop
  Later w w' := ∀ i, w i → w' i
  later_refl _ _ hi := hi
  later_trans hab hbc i hi := hbc i (hab i hi)
  Fits := Outside
  Good _ _ := True
  Serves w s := w s.globals
  Code w c _ := w c.site.globals
  Here _ _ := True
  Varies := True
  good_later _ h := h
  serves_later hl hs := hl _ hs
  code_later hl hc := hl _ hc
  here_later _ h := h
  code_site hc := hc
  code_part hc _ := hc
  holds _ := Machine.holds_of_all (Value.carries_of_all fun _ => trivial) _
  writable _ _ := ⟨trivial, fun _ _ => trivial, fun _ => trivial⟩
  erasable _ _ _ := trivial
  change hm hc := by
    refine ⟨hc.frames_size ▸ hm.size, fun i hi => ?_⟩
    rw [hc.frames_size, hc.attached i]
    exact hm.frame i hi
  enter {w} _ _ _ _ hm hc _ _ := ⟨w, fun _ hi => hi, hm.pushFrame _, fun _ _ => hc⟩
  call {w} _ _ _ _ _ hm _ _ hs _ := ⟨w, fun _ hi => hi, hm.pushFrame _, hs⟩
  lambda {w} _ _ _ _ _ _ hm _ := ⟨w, fun _ hi => hi, ⟨hm.size, hm.frame⟩, trivial⟩
  vary {w} _ _ _ _ _ _ _ _ _ _ hm _ _ _ _ := ⟨w, fun _ hi => hi, ⟨hm.size, hm.frame⟩, trivial,
    fun _ _ => trivial, fun _ => trivial, fun _ _ => trivial⟩
  register {w} _ _ _ _ _ _ _ _ _ _ hm _ hr := by
    obtain ⟨-, -, -, rfl⟩ := Machine.register_eq_ok hr
    exact ⟨w, fun _ hi => hi, ⟨hm.size, hm.frame⟩, trivial, trivial⟩
  enterModule {w} _ _ _ _ _ _ _ _ _ hm hc _ _ _ _ :=
    ⟨w, fun _ hi => hi, hm.pushFrame _,
      .of_code (fun _ _ hi => hi) (fun hl hc => hl _ hc) fun _ _ => hc⟩

theorem outside_files (h : Host) : outside.Files h where
  setLoading _ hm := ⟨hm.size, hm.frame⟩
  setLoaded _ _ hm _ := ⟨hm.size, hm.frame⟩
  openFile {w m p t program} hm _ _ _ := by
    have hpush := Outside.pushFrame hm { name := "global " ++ p.name }
    refine ⟨fun i => w i ∨ i = m.frames.size, fun i hi => .inl hi, ⟨hpush.size, ?_⟩, .inr rfl,
      fun _ _ => .inr rfl⟩
    rintro i ((hi | rfl) | hi)
    · exact hpush.frame i (.inl hi)
    · refine ⟨by simp [Machine.pushFrame], ?_⟩
      change ((m.pushFrame _).frame m.frames.size).record = none
      rw [Machine.frame_pushFrame_size]
    · exact hpush.frame i (.inr hi)

theorem outside_serving (h : Host) (commands : List Command) : outside.Serving h commands where
  files := outside_files h
  varies := trivial
  given {w m source globals outer program} hm hg := by
    have hlt : globals < 3 := by cases hg <;> decide
    refine ⟨fun i => w i ∨ i < 3, fun i hi => .inl hi, ⟨hm.size, fun i hi => hm.frame i ?_⟩,
      .inr hlt, fun _ _ => .inr hlt⟩
    rcases hi with (hi | hi) | hi
    · exact .inl hi
    · exact .inr hi
    · exact .inr hi

theorem outside_blank (input : Text) : Outside (fun _ => False) (blank input) := by
  refine ⟨Nat.le_refl 3, fun i hi => ⟨?_, record_blank input i⟩⟩
  rcases hi with hi | hi
  · exact hi.elim
  · exact hi

/-! ## Sessions -/

/-- A declaration of a module at the top of a source that fails is rolled back, wherever and however
it fails. -/
def RollsBack (h : Host) (t : Task) (m : Machine) : Prop :=
  ∀ c l isPublic n body, t = .eval c (.module l isPublic n body) → c.AtTop m →
    ∀ depth e m', run h depth t m = .error e m' → m.RolledBack c n m'

/-- Code that runs in the own frame of its source is at the top of it. -/
def TopOutside (t : Task) (m : Machine) : Prop :=
  ∀ c s, t = .eval c s → c.scope.frame = c.site.globals → c.AtTop m

/-- In every session all declarations of modules at the top of a source that fail are rolled back;
and all code that runs in the own frame of its source is at the top. -/
theorem failed_modules_rolled_back (h : Host) (input : Text) (history : List Command)
    (command : Command) :
    Throughout h h.depth (RollsBack h) (command.perform h) (after h input history).machine ∧
      Throughout h h.depth TopOutside (command.perform h) (after h input history).machine := by
  constructor
  · refine ModuleTable.throughout_perform h input history command fun t k hk ht => ?_
    rintro c l isPublic n body rfl htop depth e m' he
    exact rolledBack_of_error hk.1 (ht rfl) htop he
  · have hserving := outside_serving h (history ++ [command])
    obtain ⟨-, w, -, hm⟩ := Conduct.after_fits hserving (outside_blank input)
      fun c hc => List.mem_append_left [command] hc
    refine Conduct.throughout_perform hserving (fun w m t hm ht => ?_) hm (by simp) h.depth
    rintro c s rfl hown
    refine ⟨hown, ?_⟩
    rw [hown]
    exact (Outside.frame hm _ (.inl ht)).2

end Rollback

end ModuleScript
