import ModuleScript.Proofs.Invariant.Sessions
import ModuleScript.Proofs.Modules.Table
import ModuleScript.Proofs.Watch

/-!
# The table of modules stays well formed

Whatever a session is given and whatever comes of it, the table of modules is well formed: between
commands, whenever a task begins and whenever it ends. No module that is registered when a task
begins is dropped by it, and no member loses its tier.
-/

set_option autoImplicit false

namespace ModuleScript

open Eval Session Condition

namespace ModuleTable

/-- The table is well formed and retains what was there at a machine before. -/
def invariant (m₀ : Machine) : Invariant where
  Sound m := m.WellFormed ∧ m₀.Retains m
  Later := Machine.Retains
  Good _ := True
  Placed := Machine.Hosts
  later_refl := Machine.retains_refl
  later_trans := .trans
  placed_later hl hc := hc.later hl
  atom _ := trivial
  item _ _ := trivial
  ofItems _ := trivial
  reverse _ := trivial
  slot _ _ := trivial
  member _ _ _ := trivial
  exporting _ := ⟨fun _ => trivial, fun _ _ => trivial⟩
  pushFrame := by
    rintro m f ⟨hm, h₀⟩ hf -
    have hmoves := Machine.retains_pushFrame m f
    have hwell : (m.pushFrame f).WellFormed := by
      refine hm.pushFrame fun i hi => ?_
      rw [hf] at hi
      cases hi
    exact ⟨⟨hmoves, hwell, h₀.trans hmoves⟩, Machine.hosts_pushFrame hf⟩
  setSlot := by
    rintro m f n s ⟨hm, h₀⟩ - hf
    have hmoves := Machine.retains_bindings m f (·.set n s)
    refine ⟨hmoves, hm.bindings (b := (·.set n s)) ?_, h₀.trans hmoves⟩
    rcases hf with hf | ⟨t, ht⟩
    · exact .inl hf
    · refine .inr fun he => ?_
      rw [he] at ht
      cases ht
  eraseSlot := by
    rintro m f n ⟨hm, h₀⟩ hf
    have hmoves := Machine.retains_bindings m f (·.erase n)
    exact ⟨hmoves, hm.bindings (b := (·.erase n)) (.inl hf), h₀.trans hmoves⟩
  defineMember := by
    rintro m s i n vis ⟨hm, h₀⟩ -
    have hmoves := Machine.retains_defineMember m i n s vis
    exact ⟨hmoves, hm.defineMember i n s vis, h₀.trans hmoves⟩
  declare := by
    rintro m i n vis r ⟨hm, h₀⟩ hr
    obtain ⟨hwell, hmoves⟩ := hm.declare hr
    exact ⟨hmoves, hwell, h₀.trans hmoves⟩
  register := by
    rintro m m' c n i p isOutermost ⟨hm, h₀⟩ hc hr
    obtain ⟨hwell, hmoves, hne, hnone, hsize, hreg⟩ := hm.register hc hr
    refine ⟨⟨hmoves, hwell, h₀.trans hmoves⟩, ?_, ?_⟩
    · rintro k name ⟨hl, hk, h₀k⟩
      have hpush := Machine.retains_pushFrame k { name, record := some i }
      refine ⟨⟨hpush, hk.pushFrame fun _ _ => rfl, h₀k.trans hpush⟩, ?_, fun j hj => ?_⟩
      · simp [Machine.pushFrame]
      · rw [Machine.frame_pushFrame_size] at hj
        cases hj
        refine ⟨Nat.lt_of_lt_of_le hsize hl.records, ?_⟩
        change ((k.record i).path, i) ∈ k.registry
        rw [hl.path i hsize]
        exact hl.registered hreg
    · rintro k ⟨hl, hk, h₀k⟩
      have hdrop := hl.removeModule hm hne hnone
      exact ⟨hdrop, hk.removeModule p, h₀.trans hdrop⟩
  rest := by
    rintro m m' ⟨hm, h₀⟩ hframes hrecords hregistry -
    have hframe : ∀ f, m'.frame f = m.frame f := fun f => by rw [Machine.frame, hframes]; rfl
    have hmoves : m.Retains m' := by
      refine Machine.retains_of_frames hrecords hregistry (Nat.le_of_eq (by rw [hframes])) ?_
      intro f _
      rw [hframe]
    refine ⟨hmoves, hm.of_frames hrecords hregistry fun {f i} hi => ?_, h₀.trans hmoves⟩
    rw [hframe] at hi ⊢
    exact hm.attached hi

variable {m m₀ : Machine} {t : Task}

theorem goodTails (m₀ : Machine) : (invariant m₀).GoodTails := fun _ _ _ _ => trivial

theorem sound_self (hm : m.WellFormed) : (invariant m).Sound m :=
  ⟨hm, Machine.retains_refl m⟩

/-- The table is well formed when the task begins, when any task begins that it leads to, and when
it ends; and from its beginning on what there was is retained. -/
def Kept (h : Host) (m₀ : Machine) (t : Task) (m : Machine) : Prop :=
  m.WellFormed ∧ m₀.Retains m ∧ ∀ depth,
    Throughout h depth (fun _ k => k.WellFormed ∧ m.Retains k) (fun self => self t) m ∧
      (endOf (run h depth t m)).WellFormed ∧ m.Retains (endOf (run h depth t m))

theorem kept_of_sound (h : Host) (hm : (invariant m₀).Sound m) (ht : (invariant m₀).Fits m t) :
    Kept h m₀ t m := by
  obtain ⟨hwell, hretains⟩ := hm
  have ht : (invariant m).Fits m t := Invariant.Fits.imp (I := invariant m₀) (fun _ hi => hi) (fun _ hv => hv) ht
  refine ⟨hwell, hretains, fun depth => ⟨?_, ?_⟩⟩
  · exact Invariant.throughout_of_same (goodTails m) (sound_self hwell) (fun k u hk _ => hk)
      fun hf => hf m t ht
  · have hrun : (invariant m).Follows never (run h depth) (run h depth) :=
      Invariant.run_follows h (goodTails m) depth
    have hmoves := Invariant.moves_endOf (hrun m t ht) (sound_self hwell)
    exact ⟨hmoves.sound.1, hmoves.later⟩

/-! ## Sessions -/

theorem blank_wellFormed (input : Text) : (blank input).WellFormed := by
  refine ⟨List.nodup_nil, fun hp => ?_, fun hp => ?_, fun hp => ?_, fun hp => ?_, fun i n hn => ?_,
    fun {f i} hi => ?_⟩
  · cases hp
  · cases hp
  · cases hp
  · cases hp
  · obtain ⟨hn, -⟩ := hn
    simp [Machine.record, blank] at hn
    cases hn
  · rw [record_blank] at hi
    cases hi

theorem hosts_blank (input : Text) : ∀ f < 3, (blank input).Hosts f := by
  intro f hf
  refine ⟨hf, fun i hi => ?_⟩
  rw [record_blank] at hi
  cases hi

theorem after_sound (h : Host) (input : Text) (history : List Command) :
    (after h input history).host = h ∧
      (invariant (blank input)).Sound (after h input history).machine := by
  have hrun : ∀ depth, (invariant (blank input)).Follows never (run h depth) (run h depth) :=
    Invariant.run_follows h (goodTails (blank input))
  obtain ⟨hhost, hmoves⟩ := Invariant.after_moves hrun (sound_self (blank_wellFormed input))
    (hosts_blank input) history
  exact ⟨hhost, hmoves.sound⟩

/-- What all tasks pass that begin where the table is well formed holds throughout every command. -/
theorem throughout_perform (h : Host) (input : Text) (history : List Command) (command : Command)
    {check : Task → Machine → Prop}
    (hcheck : ∀ t m, (invariant (after h input history).machine).Sound m →
      (invariant (after h input history).machine).Fits m t → check t m) :
    Throughout h h.depth check (command.perform h) (after h input history).machine := by
  obtain ⟨-, hwell, hblank⟩ := after_sound h input history
  generalize (after h input history).machine = m at hwell hblank hcheck ⊢
  have hglobal : m.Hosts globalFrame := (hosts_blank input _ (by decide)).later hblank
  exact Invariant.throughout_of_same (goodTails m) (sound_self hwell)
    (fun k t hk ht => hcheck t k hk ht) fun hf => Invariant.perform_same hf hglobal command

/-- In every session the table of modules is well formed, between commands and throughout every
command, and nothing in it is lost but the modules that a command has made itself. -/
theorem table_wellFormed (h : Host) (input : Text) (history : List Command) (command : Command) :
    (after h input history).machine.WellFormed ∧
      Throughout h h.depth (Kept h (after h input history).machine) (command.perform h)
        (after h input history).machine ∧
      (after h input (history ++ [command])).machine.WellFormed ∧
      (after h input history).machine.Retains (after h input (history ++ [command])).machine := by
  obtain ⟨-, hwell, hblank⟩ := after_sound h input history
  generalize hm : (after h input history).machine = m at hwell hblank ⊢
  have hglobal : m.Hosts globalFrame := (hosts_blank input _ (by decide)).later hblank
  refine ⟨hwell, ?_, ?_⟩
  · rw [← hm]
    exact throughout_perform h input history command fun _ _ hk ht => kept_of_sound h hk ht
  · have hrun : (invariant m).Follows never h.runner h.runner :=
      Invariant.run_follows h (goodTails m) h.depth
    have hmoves := Invariant.moves_endOf (Invariant.perform_same (h := h) hrun hglobal command)
      (sound_self hwell)
    rw [after_machine, hm]
    exact ⟨hmoves.sound.1, hmoves.later⟩

end ModuleTable

end ModuleScript
