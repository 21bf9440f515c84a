import ModuleScript.Proofs.Conduct.Sessions
import ModuleScript.Proofs.Reading.Orderly

/-!
# Which modules code registers

Code registers modules below the one that its frame belongs to, or at the top of its source. As only
the tops of sources and the bodies of modules declare modules, all modules of a source that come to be
registered lie where its own code may declare them.
-/

set_option autoImplicit false

namespace ModuleScript

open Eval

/-- All its bodies are orderly, so that none of them declares a module. -/
def Closure.Orderly (f : Closure) : Prop := ∀ v ∈ f.variants, ModuleScript.Orderly (.expr v.body)

/-- Modules of a source lie among certain paths only. -/
def ModulePath.Among (source : Text) (paths : ModulePath → Prop) (q : ModulePath) : Prop :=
  q.source = source → paths q

namespace Machine

/-- What is known of frames: each belongs to the module with a certain path, or to none. -/
abbrev Belonging := FrameId → Option ModulePath → Prop

/-- All modules of a source that are registered lie among the paths; frames belong where they are known
to; and no closure declares modules. -/
structure Registers (source : Text) (paths : ModulePath → Prop) (w : Belonging) (m : Machine) :
    Prop where
  registered : ∀ {q i}, (q, i) ∈ m.registry → q.Among source paths
  frame : ∀ {i o}, w i o → i < m.frames.size ∧
    (m.frame i).record.map (fun r => (m.record r).path) = o
  named : ∀ {i q}, w i (some q) → q.names ≠ []
  holds : m.Holds (Value.Carries Closure.Orderly)

variable {good : Value → Prop} {here : Place → Prop} {m m' : Machine} {source : Text}
  {paths paths' : ModulePath → Prop} {w : Belonging}

theorem Change.mem_registry (hc : m.Change good here m') {e : ModulePath × RecordId}
    (h : e ∈ m'.registry) : e ∈ m.registry := by
  cases hc with
  | removeModule _ => exact List.mem_of_mem_filter h
  | _ => exact h

namespace Registers

variable (h : m.Registers source paths w)

include h

theorem mono (hp : ∀ q, paths q → paths' q) : m.Registers source paths' w :=
  ⟨fun hq hs => hp _ (h.registered hq hs), h.frame, h.named, h.holds⟩

theorem change (hc : m.Change (Value.Carries Closure.Orderly) here m') :
    m'.Registers source paths w where
  registered hq := h.registered (hc.mem_registry hq)
  frame {i o} hi := by
    obtain ⟨hlt, ho⟩ := h.frame hi
    refine ⟨hc.frames_size ▸ hlt, ?_⟩
    rw [hc.attached i, ← ho]
    exact Option.map_congr fun r _ => hc.path r
  named := h.named
  holds := hc.holds h.holds

theorem pushFrame {f : Frame} (hf : ∀ {n v}, (n, .value v) ∈ f.bindings →
    Value.Carries Closure.Orderly v) : (m.pushFrame f).Registers source paths w where
  registered := h.registered
  frame {i o} hi := by
    obtain ⟨hlt, ho⟩ := h.frame hi
    rw [frame_pushFrame m f hlt]
    refine ⟨?_, ho⟩
    rw [Machine.pushFrame, Array.size_push]
    exact Nat.lt_succ_of_lt hlt
  named := h.named
  holds := h.holds.pushFrame hf

/-- A new frame belongs to the module of its record, if this is registered under a name. -/
theorem know {i : FrameId} {o : Option ModulePath} (hi : i < m.frames.size)
    (ho : (m.frame i).record.map (fun r => (m.record r).path) = o)
    (hn : ∀ q, o = some q → q.names ≠ []) :
    m.Registers source paths fun j o' => w j o' ∨ j = i ∧ o' = o where
  registered := h.registered
  frame := by
    rintro j o' (hj | ⟨rfl, rfl⟩)
    · exact h.frame hj
    · exact ⟨hi, ho⟩
  named := by
    rintro j q (hj | ⟨rfl, hq⟩)
    · exact h.named hj
    · exact hn q hq.symm
  holds := h.holds

theorem of_eq {m' : Machine} (hframes : m'.frames = m.frames) (hrecords : m'.records = m.records)
    (hregistry : m'.registry = m.registry) (hholds : m'.Holds (Value.Carries Closure.Orderly)) :
    m'.Registers source paths w where
  registered hq := h.registered (hregistry ▸ hq)
  frame {i o} hi := by
    have hframe : m'.frame i = m.frame i := by unfold Machine.frame; rw [hframes]
    have hrecord : m'.record = m.record := by unfold Machine.record; rw [hrecords]
    rw [hframes, hframe, hrecord]
    exact h.frame hi
  named := h.named
  holds := hholds

theorem pathFor {c : Context} {o : Option ModulePath} (hc : w c.scope.frame o) (n : Ident) :
    m.pathFor c n = .below c.site.source o n := by
  obtain ⟨-, ho⟩ := h.frame hc
  unfold Machine.pathFor
  cases hr : (m.frame c.scope.frame).record with
  | none =>
    rw [hr] at ho
    subst ho
    rfl
  | some r =>
    rw [hr] at ho
    subst ho
    rfl

theorem register {c : Context} {n : Ident} {i : RecordId} {p : ModulePath} {isOutermost : Bool}
    (hr : Eval.register c n m = .ok (i, p, isOutermost) m') (hp : p.Among source paths) :
    m'.Registers source paths w := by
  obtain ⟨-, -, rfl, rfl⟩ := register_eq_ok hr
  refine ⟨fun {q j} hq => ?_, fun {j o} hj => ?_, h.named, ?_⟩
  · rcases List.mem_append.mp hq with hq | hq
    · exact h.registered hq
    · cases List.mem_singleton.mp hq
      exact hp
  · obtain ⟨hlt, ho⟩ := h.frame hj
    refine ⟨hlt, ?_⟩
    rw [← ho]
    refine Option.map_congr fun r hr' => ?_
    have hr' : (m.frame j).record = some r := hr'
    -- the record of a frame that is known to belong to a module is there already
    have hne : r ≠ m.records.size := by
      rintro rfl
      have hnone : m.record m.records.size = default := by
        unfold Machine.record
        rw [Array.getElem?_eq_none (Nat.le_refl _)]
        rfl
      rw [hr', Option.map_some, hnone] at ho
      exact h.named (ho ▸ hj) rfl
    rw [record_push, if_neg hne]
  · exact h.holds.pushRecord (fun vis => by cases vis <;> rfl) _

end Registers

end Machine

/-- Orderly code that registers modules of the source among the paths only. -/
def Machine.Belonging.Registers (source : Text) (paths : ModulePath → Prop) (w : Machine.Belonging)
    (c : Context) (s : Stmt) : Prop :=
  Orderly s ∧ ∀ l isPublic n body, s = .module l isPublic n body →
    ∃ o, w c.scope.frame o ∧ (ModulePath.below c.site.source o n).Among source paths

namespace Conduct

theorem registers_later {source : Text} {paths : ModulePath → Prop} {w w' : Machine.Belonging}
    {c : Context} {s : Stmt} (hl : ∀ i o, w i o → w' i o) (h : w.Registers source paths c s) :
    w'.Registers source paths c s := by
  refine ⟨h.1, fun l isPublic n body hs => ?_⟩
  obtain ⟨o, ho, hp⟩ := h.2 l isPublic n body hs
  exact ⟨o, hl _ o ho, hp⟩

/-- Modules are declared among the paths only: a declaration stands in a frame of which it is known
where it belongs. -/
def registering (source : Text) (paths : ModulePath → Prop)
    (hpaths : ∀ q n, paths q → paths (q.child n)) : Conduct where
  World := Machine.Belonging
  Later w w' := ∀ i o, w i o → w' i o
  later_refl _ _ _ hi := hi
  later_trans hab hbc i o hi := hbc i o (hab i o hi)
  Fits := Machine.Registers source paths
  Good _ := Closure.Orderly
  Serves _ _ := True
  Code w c s := w.Registers source paths c s
  Here _ place := ∀ q, place = .module q → q.Among source paths ∧ q.names ≠ []
  Varies := True
  good_later _ h := h
  serves_later _ h := h
  code_later := registers_later
  here_later _ h := h
  code_site _ := trivial
  code_part hc ht := by
    refine ⟨hc.1.part ht, ?_⟩
    rintro l isPublic n body rfl
    cases hc.1.part_isModule ht
  holds hm := hm.holds
  writable _ _ := ⟨nofun, fun _ _ => nofun, fun _ => nofun⟩
  erasable _ _ _ := nofun
  change hm hc := hm.change hc
  enter {w m c s f} hm hc _ hf := by
    refine ⟨w, fun _ _ hi => hi, hm.pushFrame hf.good, fun t ht => ⟨hc.1.part ht, ?_⟩⟩
    rintro l isPublic n body rfl
    cases hc.1.part_isModule ht
  call {w m f v s g} hm hf hv _ hg :=
    ⟨w, fun _ _ hi => hi, hm.pushFrame hg.good, hf v hv, nofun⟩
  lambda {w m c l n ps body} hm hc := by
    refine ⟨w, fun _ _ hi => hi, hm.of_eq rfl rfl rfl ?_, ?_⟩
    · exact hm.holds.of_exporting rfl rfl (hm.holds.exporting.of_eq rfl rfl)
    · exact List.forall_mem_singleton.mpr (hc.1.part (.head _))
  vary {w m c l n l' ps body r f} _ hm hc _ hf _ := by
    refine ⟨w, fun _ _ hi => hi, hm.of_eq rfl rfl rfl ?_, ?_, fun _ _ => nofun, fun _ => nofun,
      fun _ _ => nofun⟩
    · exact hm.holds.of_exporting rfl rfl (hm.holds.exporting.of_eq rfl rfl)
    · exact List.forall_mem_append.mpr ⟨hf, List.forall_mem_singleton.mpr (hc.1.part (.head _))⟩
  register {w m m' c l isPublic n body i p isOutermost} hm hc hr := by
    obtain ⟨o, ho, hp⟩ := hc.2 l isPublic n body rfl
    obtain ⟨hpath, -⟩ := Machine.register_eq_ok hr
    have hamong : p.Among source paths := by
      rw [hpath, hm.pathFor ho]
      exact hp
    refine ⟨w, fun _ _ hi => hi, hm.register hr hamong, nofun, ?_⟩
    rintro q ⟨⟩
    exact ⟨hamong, hpath ▸ Machine.pathFor_names m c n⟩
  enterModule {w m c l isPublic n body name i p} hm hc _ hp hrecord _ := by
    obtain ⟨hamong, hnames⟩ := hp p rfl
    have hpush := hm.pushFrame (f := { name, record := some i }) fun hv => by cases hv
    have hknown := hpush.know (i := m.frames.size) (o := some p) (by simp [Machine.pushFrame])
      (by rw [Machine.frame_pushFrame_size]; exact congrArg some hrecord)
      (by rintro q ⟨⟩; exact hnames)
    refine ⟨_, fun j o hj => .inl hj, hknown,
      .of_code (fun _ _ _ hi => hi) registers_later fun s hs => ⟨hc.1.member hs, ?_⟩⟩
    rintro _ _ n' _ rfl
    exact ⟨some p, .inr ⟨rfl, rfl⟩, fun hsource => hpaths p n' (hamong hsource)⟩

/-- A file of another source registers no module of this one itself. -/
theorem registering_opening {source : Text} {paths : ModulePath → Prop}
    {hpaths : ∀ q n, paths q → paths (q.child n)} {h : Host} {p : Path} (hp : p.text ≠ source) :
    (registering source paths hpaths).Opening h p := by
  intro w m t program hm _ hr
  have hpush : (m.pushFrame { name := "global " ++ p.name }).Registers source paths w :=
    Machine.Registers.pushFrame hm fun hv => by cases hv
  have hknown := hpush.know (i := m.frames.size) (o := none) (by simp [Machine.pushFrame])
    (by rw [Machine.frame_pushFrame_size]; rfl) nofun
  refine ⟨_, fun i o hi => .inl hi, hknown.of_eq rfl rfl rfl hknown.holds.pushExports, trivial,
    fun s hs => ⟨orderly_of_read hr s hs, ?_⟩⟩
  rintro l isPublic n body rfl
  exact ⟨none, .inr ⟨rfl, rfl⟩, fun hsource => absurd hsource hp⟩

end Conduct

end ModuleScript
