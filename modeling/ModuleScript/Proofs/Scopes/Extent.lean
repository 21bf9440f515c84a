import ModuleScript.Proofs.Conduct.Sessions

/-!
# What is referred to exists

Frames, module records, functions and tables of exports are numbered in the order in which they are
made. In every session a number that occurs anywhere, in a scope, a closure or a frame, is one of
something that has been made.
-/

set_option autoImplicit false

namespace ModuleScript

open Eval Session

/-- How many frames, records, functions and tables of exports there are. -/
structure Extent where
  frames : Nat
  records : Nat
  functions : Nat
  exports : Nat

namespace Extent

structure Le (e e' : Extent) : Prop where
  frames : e.frames ≤ e'.frames
  records : e.records ≤ e'.records
  functions : e.functions ≤ e'.functions
  exports : e.exports ≤ e'.exports

theorem le_refl (e : Extent) : e.Le e :=
  ⟨Nat.le_refl _, Nat.le_refl _, Nat.le_refl _, Nat.le_refl _⟩

theorem Le.trans {a b c : Extent} (hab : a.Le b) (hbc : b.Le c) : a.Le c :=
  ⟨Nat.le_trans hab.frames hbc.frames, Nat.le_trans hab.records hbc.records,
    Nat.le_trans hab.functions hbc.functions, Nat.le_trans hab.exports hbc.exports⟩

/-- A closure that has been made, with scopes of frames that have been made. -/
structure HasClosure (e : Extent) (f : Closure) : Prop where
  identity : f.identity < e.functions
  scope : ∀ v ∈ f.variants, ∀ i ∈ v.scope.chain, i < e.frames

structure HasSite (e : Extent) (s : Site) : Prop where
  globals : s.globals < e.frames
  exports : s.exports < e.exports

/-- A context in which code may run. -/
structure HasContext (e : Extent) (c : Context) : Prop where
  scope : ∀ i ∈ c.scope.chain, i < e.frames
  site : e.HasSite c.site

/-- Only what has been made can be changed. -/
def HasPlace (e : Extent) : Place → Prop
  | .record i => i < e.records
  | _ => True

variable {e e' : Extent}

theorem HasClosure.later {f : Closure} (hl : e.Le e') (hf : e.HasClosure f) : e'.HasClosure f :=
  ⟨Nat.lt_of_lt_of_le hf.identity hl.functions,
    fun v hv i hi => Nat.lt_of_lt_of_le (hf.scope v hv i hi) hl.frames⟩

theorem HasSite.later {s : Site} (hl : e.Le e') (hs : e.HasSite s) : e'.HasSite s :=
  ⟨Nat.lt_of_lt_of_le hs.globals hl.frames, Nat.lt_of_lt_of_le hs.exports hl.exports⟩

theorem HasContext.later {c : Context} (hl : e.Le e') (hc : e.HasContext c) :
    e'.HasContext c :=
  ⟨fun i hi => Nat.lt_of_lt_of_le (hc.scope i hi) hl.frames, hc.site.later hl⟩

theorem HasPlace.later {p : Place} (hl : e.Le e') (hp : e.HasPlace p) : e'.HasPlace p := by
  cases p with
  | record i => exact Nat.lt_of_lt_of_le hp hl.records
  | _ => trivial

end Extent

def Machine.extent (m : Machine) : Extent :=
  ⟨m.frames.size, m.records.size, m.functions, m.exports.size⟩

/-- What the frames and functions of the machine refer to has been made. -/
structure Machine.Ranged (m : Machine) : Prop where
  base : 3 ≤ m.frames.size
  attached : ∀ {i r}, (m.frame i).record = some r → r < m.records.size
  holds : m.Holds (Value.Carries m.extent.HasClosure)

namespace Machine.Ranged

variable {m m' : Machine}

theorem of_eq (h : m.Ranged) (hf : m'.frames = m.frames) (hr : m'.records = m.records)
    (hl : m.extent.Le m'.extent) (he : m'.Exporting (Value.Carries m.extent.HasClosure)) :
    m'.Ranged := by
  refine ⟨hf ▸ h.base, fun {i r} hi => ?_, ?_⟩
  · rw [Machine.frame, hf] at hi
    rw [hr]
    exact h.attached hi
  · exact (h.holds.of_exporting hf hr he).mono fun _ hv => hv.mono fun _ => .later hl

theorem pushFrame (h : m.Ranged) {f : Frame} (hf : ∀ r, f.record = some r → r < m.records.size)
    (hb : ∀ {n v}, (n, .value v) ∈ f.bindings → Value.Carries m.extent.HasClosure v) :
    (m.pushFrame f).Ranged ∧ m.extent.Le (m.pushFrame f).extent ∧
      m.frames.size < (m.pushFrame f).extent.frames := by
  have hlt : m.frames.size < (m.pushFrame f).extent.frames := by
    simp [Machine.extent, Machine.pushFrame]
  have hl : m.extent.Le (m.pushFrame f).extent :=
    ⟨Nat.le_of_lt hlt, Nat.le_refl _, Nat.le_refl _, Nat.le_refl _⟩
  refine ⟨⟨?_, fun {i r} hi => ?_, ?_⟩, hl, hlt⟩
  · exact Nat.le_trans h.base (Nat.le_of_lt hlt)
  · rw [frame_push] at hi
    split at hi
    · exact hf r hi
    · exact h.attached hi
  · exact (h.holds.pushFrame hb).mono fun _ hv => hv.mono fun _ => .later hl

theorem pushExports (h : m.Ranged) :
    ({ m with exports := m.exports.push [] } : Machine).Ranged ∧
      m.extent.Le ({ m with exports := m.exports.push [] } : Machine).extent ∧
      m.exports.size < ({ m with exports := m.exports.push [] } : Machine).extent.exports := by
  have hsize : (m.exports.push []).size = m.exports.size + 1 := Array.size_push _
  have hl : m.extent.Le ({ m with exports := m.exports.push [] } : Machine).extent := by
    refine ⟨Nat.le_refl _, Nat.le_refl _, Nat.le_refl _, ?_⟩
    change m.exports.size ≤ (m.exports.push []).size
    omega
  refine ⟨h.of_eq rfl rfl hl h.holds.exporting.pushExports, hl, ?_⟩
  change m.exports.size < (m.exports.push []).size
  omega

theorem newFunction (h : m.Ranged) :
    ({ m with functions := m.functions + 1 } : Machine).Ranged ∧
      m.extent.Le ({ m with functions := m.functions + 1 } : Machine).extent := by
  have hl : m.extent.Le ({ m with functions := m.functions + 1 } : Machine).extent :=
    ⟨Nat.le_refl _, Nat.le_refl _, Nat.le_succ _, Nat.le_refl _⟩
  exact ⟨h.of_eq rfl rfl hl (h.holds.exporting.of_eq rfl rfl), hl⟩

theorem register {c : Context} {n : Ident} {i : RecordId} {p : ModulePath} {isOutermost : Bool}
    (h : m.Ranged) (hr : Eval.register c n m = .ok (i, p, isOutermost) m') :
    m'.Ranged ∧ m.extent.Le m'.extent ∧ i < m'.extent.records := by
  obtain ⟨-, -, rfl, rfl⟩ := Machine.register_eq_ok hr
  have hlt : m.records.size <
      (m.records.push { path := p, parent := (m.frame c.scope.frame).record }).size := by
    rw [Array.size_push]
    exact Nat.lt_succ_self _
  have hl : m.extent.Le
      (Machine.extent { m with
        records := m.records.push { path := p, parent := (m.frame c.scope.frame).record }
        registry := m.registry ++ [(p, m.records.size)] }) :=
    ⟨Nat.le_refl _, Nat.le_of_lt hlt, Nat.le_refl _, Nat.le_refl _⟩
  refine ⟨⟨h.base, fun {j r} hj => Nat.lt_trans (h.attached hj) hlt, ?_⟩, hl, hlt⟩
  refine (h.holds.pushRecord (fun vis => by cases vis <;> rfl) _).mono fun v hv => ?_
  exact hv.mono fun f hf => hf.later hl

theorem change {here : Place → Prop} (h : m.Ranged)
    (hc : m.Change (Value.Carries m.extent.HasClosure) here m') :
    m'.Ranged ∧ m'.extent = m.extent := by
  have he : m'.extent = m.extent := by
    unfold Machine.extent
    rw [hc.frames_size, hc.records_size, hc.functions, hc.exports_size]
  refine ⟨⟨hc.frames_size ▸ h.base, fun {i r} hi => ?_, ?_⟩, he⟩
  · rw [hc.attached] at hi
    rw [hc.records_size]
    exact h.attached hi
  · rw [he]
    exact hc.holds h.holds

end Machine.Ranged

namespace Conduct

/-- Code runs in frames that have been made, and so does all that there is. -/
def ranged : Conduct where
  World := Extent
  Later := Extent.Le
  later_refl := Extent.le_refl
  later_trans := Extent.Le.trans
  Fits e m := e = m.extent ∧ m.Ranged
  Good := Extent.HasClosure
  Serves := Extent.HasSite
  Code e c _ := e.HasContext c
  Here := Extent.HasPlace
  Varies := True
  good_later := .later
  serves_later := .later
  code_later := .later
  here_later := .later
  code_site hc := hc.site
  code_part hc _ := hc
  holds := by
    rintro _ m ⟨rfl, hm⟩
    exact hm.holds
  writable := by
    rintro _ m c s ⟨rfl, hm⟩ hc
    exact ⟨trivial, fun i hi => hm.attached hi, fun _ => trivial⟩
  erasable _ _ _ := trivial
  change := by
    rintro _ m m' ⟨rfl, hm⟩ hc
    obtain ⟨hm', he⟩ := hm.change hc
    exact ⟨he.symm, hm'⟩
  enter := by
    rintro _ m c s f ⟨rfl, hm⟩ hc _ hf
    obtain ⟨hm', hl, hlt⟩ := hm.pushFrame (fun r hr => by rw [hf.record] at hr; cases hr) hf.good
    refine ⟨_, hl, ⟨rfl, hm'⟩, fun t _ => ⟨?_, hc.site.later hl⟩⟩
    exact List.forall_mem_cons.mpr ⟨hlt, (hc.later hl).scope⟩
  call := by
    rintro _ m f v s g ⟨rfl, hm⟩ hf hv hs hg
    obtain ⟨hm', hl, hlt⟩ := hm.pushFrame (fun r hr => by rw [hg.record] at hr; cases hr) hg.good
    refine ⟨_, hl, ⟨rfl, hm'⟩, ?_, hs.later hl⟩
    exact List.forall_mem_cons.mpr ⟨hlt, (hf.later hl).scope v hv⟩
  lambda := by
    rintro _ m c l n ps body ⟨rfl, hm⟩ hc
    obtain ⟨hm', hl⟩ := hm.newFunction
    refine ⟨_, hl, ⟨rfl, hm'⟩, Nat.lt_succ_self m.functions, fun v hv => ?_⟩
    cases List.mem_singleton.mp hv
    exact hc.scope
  vary := by
    rintro _ m c l n l' ps body r f - ⟨rfl, hm⟩ hc hr hf -
    obtain ⟨hm', hl⟩ := hm.newFunction
    refine ⟨_, hl, ⟨rfl, hm'⟩, ⟨Nat.lt_succ_self m.functions, fun v hv => ?_⟩, fun i hi => ?_,
      fun _ => trivial, fun _ _ => trivial⟩
    · rcases List.mem_append.mp hv with hv | hv
      · exact hf.scope v hv
      · cases List.mem_singleton.mp hv
        exact hc.scope
    · obtain ⟨-, hfound, -⟩ := resolve_eq_ok hr
      obtain ⟨-, hin⟩ := Machine.lookup_eq_some hfound
      obtain ⟨-, ⟨k, hk, hrecord, -⟩ | ⟨hk, -⟩⟩ := Machine.lookupIn_eq_some hin
      · rw [hi] at hk
        cases hk
        exact hm.attached hrecord
      · rw [hi] at hk
        cases hk
  register := by
    rintro _ m m' c l isPublic n body i p isOutermost ⟨rfl, hm⟩ hc hr
    obtain ⟨hm', hl, hlt⟩ := hm.register hr
    exact ⟨_, hl, ⟨rfl, hm'⟩, hlt, trivial⟩
  enterModule := by
    rintro _ m c l isPublic n body name i p ⟨rfl, hm⟩ hc hi - - -
    obtain ⟨hm', hl, hlt⟩ := hm.pushFrame (f := { name, record := some i })
      (fun r hr => by cases hr; exact hi) fun hv => by cases hv
    refine ⟨_, hl, ⟨rfl, hm'⟩, .of_code Extent.le_refl .later fun t _ => ⟨?_, hc.site.later hl⟩⟩
    exact List.forall_mem_cons.mpr ⟨hlt, (hc.later hl).scope⟩

theorem ranged_files (h : Host) : ranged.Files h where
  setLoading := by
    rintro _ m paths ⟨rfl, hm⟩
    exact ⟨rfl, hm.of_eq rfl rfl (Extent.le_refl _) (hm.holds.exporting.of_eq rfl rfl)⟩
  setLoaded := by
    rintro _ m p e ⟨rfl, hm⟩ he
    exact ⟨rfl, hm.of_eq rfl rfl (Extent.le_refl _) (hm.holds.exporting.setLoaded p he)⟩
  openFile := by
    rintro _ m p t program ⟨rfl, hm⟩ - - -
    obtain ⟨hm₁, hl₁, hlt⟩ := hm.pushFrame (f := { name := "global " ++ p.name })
      (fun r hr => by cases hr) fun hv => by cases hv
    obtain ⟨hm₂, hl₂, hexports⟩ := hm₁.pushExports
    have hbase := hm₂.base
    refine ⟨_, hl₁.trans hl₂, ⟨rfl, hm₂⟩, ⟨hlt, hexports⟩, fun s _ => ⟨?_, hlt, hexports⟩⟩
    refine List.forall_mem_cons.mpr ⟨hlt, ?_⟩
    exact List.forall_mem_cons.mpr ⟨Nat.lt_of_lt_of_le (by decide) hbase,
      List.forall_mem_singleton.mpr (Nat.lt_of_lt_of_le (by decide) hbase)⟩

theorem ranged_serving (h : Host) (commands : List Command) : ranged.Serving h commands where
  files := ranged_files h
  varies := trivial
  given := by
    rintro _ m source globals outer program ⟨rfl, hm⟩ hg
    obtain ⟨hm', hl, hexports⟩ := hm.pushExports
    have hbase := hm.base
    have hall : ∀ i ∈ globals :: outer, i < m.frames.size := by
      have hthree : ∀ i ∈ globals :: outer, i < 3 := by cases hg <;> decide
      exact fun i hi => Nat.lt_of_lt_of_le (hthree i hi) hbase
    have hsite : Extent.HasSite _ ⟨source, globals, m.exports.size⟩ := ⟨hall _ (.head _), hexports⟩
    exact ⟨_, hl, ⟨rfl, hm'⟩, hsite, fun s _ => ⟨hall, hsite⟩⟩

theorem ranged_blank (input : Text) : (blank input).Ranged where
  base := Nat.le_refl 3
  attached {i r} hi := by
    match i with
    | 0 | 1 | 2 => cases hi
    | i + 3 => cases hi
  holds := blank_holds (fun _ => Value.carries_plain rfl) input

end Conduct

/-- In every session, whenever a task begins, all that the machine refers to has been made, and nodes
are evaluated in frames that have been. -/
theorem Machine.begins_ranged (h : Host) (input : Text) (history : List Command)
    (command : Command) :
    Throughout h h.depth (fun t m => m.Ranged ∧ ∀ c s, t = .eval c s → m.extent.HasContext c)
      (command.perform h) (after h input history).machine := by
  have hserving := Conduct.ranged_serving h (history ++ [command])
  obtain ⟨-, w, -, hm⟩ := Conduct.after_fits hserving
    (⟨rfl, Conduct.ranged_blank input⟩ : Conduct.ranged.Fits _ _)
    fun c hc => List.mem_append_left [command] hc
  refine Conduct.throughout_perform hserving ?_ hm (by simp) h.depth
  rintro _ k t ⟨rfl, hk⟩ ht
  refine ⟨hk, ?_⟩
  rintro c s rfl
  exact ht

end ModuleScript
