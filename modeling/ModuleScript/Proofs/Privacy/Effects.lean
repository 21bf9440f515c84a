import ModuleScript.Proofs.Privacy.Access
import ModuleScript.Proofs.Simulation.Run

/-!
# Bindings, modules and files under a discipline

Each action of evaluation that changes the machine, done to two machines that are alike, leaves them
alike and sound. Code that may bind a name binds it to the same valid value in both; only what a
secret member is bound to may differ.
-/

set_option autoImplicit false

namespace ModuleScript.Discipline

open Eval

variable {D : Discipline} {m n : Machine} {c : Context} {x : Ident} {v : Value}

/-- The machines of two runs under a discipline. What is known of both is the first. -/
abbrev worlds (D : Discipline) : Worlds where
  World := Machine
  Later := Grows
  later_refl := grows_refl
  later_trans := Grows.trans
  Machines w m n := w = m ∧ D.Sound m ∧ D.Alike m n

section Ends

variable {α β : Type} {P : Machine → α → β → Prop} {f : Eval α} {g : Eval β}

/-- Both computations move their machines and yield results that correspond. -/
theorem agree_moves (h : D.Sound m → ∀ n, D.Alike m n → ∃ a b m' n', f m = .ok a m' ∧
    g n = .ok b n' ∧ D.Moves m n m' n' ∧ P m' a b) : D.worlds.Agree m P f g := by
  rintro _ n ⟨rfl, hs, ha⟩
  obtain ⟨a, b, m', n', hf, hg, hm, hp⟩ := h hs n ha
  rw [hf, hg]
  exact .ok hm.grows ⟨rfl, hm.sound, hm.alike⟩ hp

/-- Both computations move their machines, or both fail alike and leave them. -/
theorem agree_moves_or (h : D.Sound m → ∀ n, D.Alike m n → (∃ a b m' n', f m = .ok a m' ∧
    g n = .ok b n' ∧ D.Moves m n m' n' ∧ P m' a b) ∨
    ∃ e, f m = .error e m ∧ g n = .error e n) : D.worlds.Agree m P f g := by
  rintro _ n ⟨rfl, hs, ha⟩
  rcases h hs n ha with ⟨a, b, m', n', hf, hg, hm, hp⟩ | ⟨e, hf, hg⟩
  · rw [hf, hg]
    exact .ok hm.grows ⟨rfl, hm.sound, hm.alike⟩ hp
  · have hend : D.worlds.Machines m m n := ⟨rfl, hs, ha⟩
    rw [hf, hg]
    exact .error (grows_refl m) hend

end Ends

/-! ## Frames -/

theorem good_pushFrame (m : Machine) (c : Context) {f : Frame} (hf : f.record = none) :
    Good (m.pushFrame f) { c with scope := c.scope.push m.frames.size } := by
  refine ⟨?_, fun i hi => ?_⟩
  · simp [Scope.push, Machine.pushFrame]
  · have hframe := Machine.frame_pushFrame_size m f
    dsimp only [Scope.push] at hi
    rw [hframe, hf] at hi
    cases hi

theorem frames_moves (hs : D.Sound m) (ha : D.Alike m n) {f f' : Frame}
    (hf : (D.like m).Frames f f') : f = f' ∧ D.Moves m n (m.pushFrame f) (n.pushFrame f') := by
  obtain rfl := hf.eq like_eq
  refine ⟨rfl, moves_pushFrame hs ha (fun {x v} hx => ?_) fun r hr => ?_⟩
  · have hall : ∀ {b b' : Bindings Slot}, (D.like m).Bound b b' → ∀ {x v},
        (x, Slot.value v) ∈ b → D.Valid m v := by
      intro b b' hb
      induction hb with
      | nil =>
        intro x v hx
        cases hx
      | cons hpq _ ih =>
        intro x v hx
        rcases List.mem_cons.mp hx with rfl | hx
        · obtain ⟨-, u, u', hu, -, hm⟩ := hpq
          cases hu
          exact valid_left hm
        · exact ih hx
    exact hall hf.bindings hx
  · rw [hf.record] at hr
    cases hr

theorem enter_agrees {f f' : Frame} (hf : (D.like m).Frames f f') (c : Context) :
    D.worlds.Agree m (fun w d d' => d = d' ∧ d.module = c.module ∧ d.site = c.site ∧ Good w d)
      (c.enter f) (c.enter f') := by
  refine agree_moves fun hs n ha => ?_
  obtain ⟨rfl, hm⟩ := frames_moves hs ha hf
  have hsize : n.frames.size = m.frames.size := ha.same (·.frames.size) fun _ => rfl
  refine ⟨_, _, _, _, rfl, rfl, hm, ?_, rfl, rfl, good_pushFrame m c hf.record⟩
  rw [hsize]

/-! ## Bindings -/

theorem define_moves (hs : D.Sound m) (ha : D.Alike m n) (hg : Good m c) (hc : D.Allows c.module x)
    (hv : D.Valid m v) (isPublic : Bool) :
    ∃ m' n', define c x v isPublic m = .ok ⟨⟩ m' ∧ define c x v isPublic n = .ok ⟨⟩ n' ∧
      D.Moves m n m' n' := by
  refine ⟨_, _, rfl, rfl, ?_⟩
  dsimp only
  rw [ha.frame]
  have hslot : ∀ u, Slot.value v = .value u → D.Valid m u := by
    rintro _ ⟨⟩
    exact hv
  cases hr : (m.frame c.scope.frame).record with
  | some i =>
    obtain ⟨-, hmodule⟩ := hg.module i hr
    have hx := hc _ hmodule
    exact moves_defineMember hs ha i x (fun _ => hx) (.inr ⟨rfl, hslot⟩)
  | none =>
    have hset := moves_setSlot hs ha c.scope.frame x hslot
    dsimp only
    by_cases hp : isPublic = true ∧ c.scope.frame = c.site.globals
    · rw [if_pos hp, if_pos hp]
      exact hset.trans (moves_setExport hset.sound hset.alike _ x (like_later hset.grows hv))
    · rw [if_neg hp, if_neg hp]
      exact hset

/-- Two literals bound to a secret member in its own module. -/
theorem define_secret_moves (hs : D.Sound m) (ha : D.Alike m n) (hg : Good m c) {i : RecordId}
    (hr : (m.frame c.scope.frame).record = some i)
    (hx : ∀ path, c.module = some path → D.Secret path x) (v v' : Value) :
    ∃ m' n', define c x v false m = .ok ⟨⟩ m' ∧ define c x v' false n = .ok ⟨⟩ n' ∧
      D.Moves m n m' n' := by
  refine ⟨_, _, rfl, rfl, ?_⟩
  dsimp only
  rw [ha.frame, hr]
  obtain ⟨-, hmodule⟩ := hg.module i hr
  exact moves_defineMember hs ha i x (fun hp => by cases hp) (.inl (hx _ hmodule))

theorem newClosure_moves (hs : D.Sound m) (ha : D.Alike m n) (name : Option Ident)
    {vs : List Variant} (hv : ∀ v ∈ vs, D.Node v.module (.expr v.body)) :
    ∃ v m' n', newClosure name vs m = .ok v m' ∧ newClosure name vs n = .ok v n' ∧
      D.Moves m n m' n' ∧ D.Valid m' v ∧ m'.frames = m.frames ∧ m'.records = m.records := by
  have hfunctions : n.functions = m.functions := ha.same (·.functions) fun _ => rfl
  refine ⟨.closure ⟨m.functions, name, vs⟩, { m with functions := m.functions + 1 },
    { n with functions := n.functions + 1 }, rfl, ?_, ?_, .closure ⟨rfl, hv⟩, rfl, rfl⟩
  · unfold newClosure
    rw [hfunctions]
  · exact moves_rest (f := fun m => { m with functions := m.functions + 1 }) hs ha
      (fun _ _ => rfl) rfl rfl rfl rfl

theorem replace_moves (hs : D.Sound m) (ha : D.Alike m n) {r : Resolution}
    (hx : ∀ i, r.owner = some i → ¬ D.Secret (m.record i).path x) (hv : D.Valid m v) :
    ∃ m' n', replace c r x v m = .ok ⟨⟩ m' ∧ replace c r x v n = .ok ⟨⟩ n' ∧
      D.Moves m n m' n' := by
  refine ⟨_, _, rfl, rfl, ?_⟩
  dsimp only
  have hslot : ∀ u, Slot.value v = .value u → D.Valid m u := by
    rintro _ ⟨⟩
    exact hv
  cases hr : r.owner with
  | some i => exact moves_defineMember hs ha i x (fun _ => hx i hr) (.inr ⟨rfl, hslot⟩)
  | none =>
    have hset := moves_setSlot hs ha r.frame x hslot
    dsimp only
    rw [hset.alike.exportsOf]
    split
    · exact hset.trans (moves_setExport hset.sound hset.alike _ x (like_later hset.grows hv))
    · exact hset

theorem vary_agrees (hc : D.Allows c.module x) {variant : Variant}
    (hv : D.Node variant.module (.expr variant.body)) :
    D.worlds.Agree m (fun w => (D.like w).Matches) (vary c x variant) (vary c x variant) := by
  refine agree_moves_or fun hs n ha => ?_
  unfold vary
  rcases resolve_alike hs ha hc with ⟨r, u, he, he', hu, -, hx⟩ | ⟨e, he, he'⟩
  · rw [bind_of_ok he, bind_of_ok he']
    cases u with
    | closure f =>
      dsimp only
      split
      · exact .inr ⟨_, rfl, rfl⟩
      · have hvariants : ∀ v ∈ f.variants ++ [variant], D.Node v.module (.expr v.body) := by
          intro w hw
          rcases List.mem_append.mp hw with hw | hw
          · cases hu with
            | plain h => cases h
            | closure h => exact h.2 w hw
          · rw [List.mem_singleton.mp hw]
            exact hv
        obtain ⟨g, m₁, n₁, hm₁, hn₁, hmoves, hg, -, hrecords⟩ :=
          newClosure_moves hs ha f.name hvariants
        have hx₁ : ∀ i, r.owner = some i → ¬ D.Secret (m₁.record i).path x := by
          intro i hi
          have hrecord : m₁.record i = m.record i := by
            unfold Machine.record
            rw [hrecords]
          rw [hrecord]
          exact hx i hi
        obtain ⟨m₂, n₂, hm₂, hn₂, hmoves'⟩ :=
          replace_moves (c := c) hmoves.sound hmoves.alike hx₁ hg
        refine .inl ⟨g, g, m₂, n₂, ?_, ?_, hmoves.trans hmoves', like_later hmoves'.grows hg⟩
        · rw [bind_of_ok hm₁, bind_of_ok hm₂]
          rfl
        · rw [bind_of_ok hn₁, bind_of_ok hn₂]
          rfl
    | _ => exact .inr ⟨_, rfl, rfl⟩
  · exact .inr ⟨e, bind_of_error he, bind_of_error he'⟩

end ModuleScript.Discipline
