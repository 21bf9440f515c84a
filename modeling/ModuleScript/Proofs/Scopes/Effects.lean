import ModuleScript.Proofs.Names
import ModuleScript.Proofs.Scopes.Kept
import ModuleScript.Proofs.Simulation.Run

/-!
# Where evaluation writes

Every action that binds or restores a name does so in the frame it runs in, or in the record
attached to it; all other actions make new frames and records or touch neither. Only a new variant
of a function is written where its name was found.
-/

set_option autoImplicit false

namespace ModuleScript.Machine

open Eval

variable {R : Slot → Slot → Prop} {id : FrameId} {m₀ m : Machine} {c : Context}

theorem Kept.setSlot (h : Kept R id m₀ m) {i : FrameId} {n : Ident} {s : Slot}
    (hi : Open id m₀ i ∨
      (m₀.frame i).Kept R { m.frame i with bindings := (m.frame i).bindings.set n s }) :
    Kept R id m₀ (m.setSlot i n s) :=
  h.modifyFrame (fun _ => rfl) hi

theorem Kept.eraseSlot (h : Kept R id m₀ m) {i : FrameId} {n : Ident} (hi : Open id m₀ i) :
    Kept R id m₀ (m.eraseSlot i n) :=
  h.modifyFrame (fun _ => rfl) (.inl hi)

theorem Kept.define (h : Kept R id m₀ m) (hc : Open id m₀ c.scope.frame) (n : Ident) (v : Value)
    (isPublic : Bool) : ∃ m', define c n v isPublic m = .ok ⟨⟩ m' ∧ Kept R id m₀ m' := by
  refine ⟨_, rfl, ?_⟩
  dsimp only
  cases hr : (m.frame c.scope.frame).record with
  | some r => exact h.setRecord (.inl (h.openRecord hc hr))
  | none =>
    have hset : Kept R id m₀ (m.setSlot c.scope.frame n (.value v)) := h.setSlot (.inl hc)
    dsimp only
    split
    · exact hset.of_eq rfl rfl
    · exact hset

theorem Kept.restore (h : Kept R id m₀ m) (hc : Open id m₀ c.scope.frame) (n : Ident)
    (old : Previous) : Kept R id m₀ (restore c n old m) := by
  unfold Eval.restore
  cases hr : (m.frame c.scope.frame).record with
  | some r => exact h.setRecord (.inl (h.openRecord hc hr))
  | none =>
    dsimp only
    have hexport : ∀ {m' : Machine}, Kept R id m₀ m' →
        Kept R id m₀ (m'.eraseExport c.site.exports n) ∧
          ∀ v, Kept R id m₀ (m'.setExport c.site.exports n v) :=
      fun h' => ⟨h'.of_eq rfl rfl, fun _ => h'.of_eq rfl rfl⟩
    cases old.slot with
    | none =>
      have hslot := h.eraseSlot (n := n) hc
      split
      · cases old.exported with
        | none => exact (hexport hslot).1
        | some v => exact (hexport hslot).2 v
      · exact hslot
    | some s =>
      have hslot := h.setSlot (n := n) (s := s) (.inl hc)
      split
      · cases old.exported with
        | none => exact (hexport hslot).1
        | some v => exact (hexport hslot).2 v
      · exact hslot

theorem Kept.register (h : Kept R id m₀ m) (n : Ident) :
    (∃ r p o m', register c n m = .ok (r, p, o) m' ∧ m₀.records.size ≤ r ∧ Kept R id m₀ m') ∨
      ∃ e, register c n m = .error e m := by
  unfold Eval.register Machine.declareModule
  dsimp only
  split
  · rename_i r m' hd
    split at hd
    · cases hd
    · cases hd
      exact .inl ⟨_, _, _, _, rfl, h.records_size, (h.pushRecord _).of_eq rfl rfl⟩
  · exact .inr ⟨_, rfl⟩

theorem Kept.declareMember (h : Kept R id m₀ m) {r : RecordId} (hr : m₀.records.size ≤ r)
    (n : Ident) (v : Visibility) :
    (∃ m', change (fun m => ((m.record r).declare n v).map (m.setRecord r)) m = .ok () m' ∧
        Kept R id m₀ m') ∨
      ∃ e, change (fun m => ((m.record r).declare n v).map (m.setRecord r)) m = .error e m := by
  unfold change
  dsimp only
  cases (m.record r).declare n v with
  | error e => exact .inr ⟨e, rfl⟩
  | ok q => exact .inl ⟨_, rfl, h.setRecord (.inl (.inr hr))⟩

section Replace

variable {r : Resolution} {n : Ident} {f g : Closure}

theorem Kept.replaceMember (h : Kept R id m₀ m)
    (hR : ∀ s, R s (.value (.closure f)) → R s (.value (.closure g))) {i : RecordId}
    {v : Visibility} (hm : (m.record i).member? n = some (.value (.closure f), v)) :
    Kept R id m₀ (m.defineMember i n (.value (.closure g)) .isPrivate) := by
  by_cases hi : OpenRecord id m₀ i
  · exact h.setRecord (.inl hi)
  · obtain ⟨hne, hlt⟩ := not_or.mp hi
    have hold := h.record i (by omega) hne
    refine h.setRecord (.inr ?_)
    unfold Record.member? at hm
    unfold Record.define Record.visibility?
    rw [Bindings.has_eq_isSome, Bindings.has_eq_isSome]
    cases hp : (m.record i).publicMembers.get? n with
    | some s =>
      rw [hp] at hm
      cases hm
      exact ⟨hold.path, hold.parent, Bindings.Kept.set hold.publicMembers hp hR, hold.privateMembers⟩
    | none =>
      rw [hp] at hm
      cases hq : (m.record i).privateMembers.get? n with
      | none =>
        rw [hq] at hm
        cases hm
      | some s =>
        rw [hq] at hm
        cases hm
        exact ⟨hold.path, hold.parent, hold.publicMembers, Bindings.Kept.set hold.privateMembers hq hR⟩

theorem Kept.replace (h : Kept R id m₀ m)
    (hR : ∀ s, R s (.value (.closure f)) → R s (.value (.closure g)))
    (hl : m.lookup c.scope n = some r) (hs : r.slot = .value (.closure f)) :
    ∃ m', replace c r n (.closure g) m = .ok ⟨⟩ m' ∧ Kept R id m₀ m' := by
  refine ⟨_, rfl, ?_⟩
  dsimp only
  obtain ⟨-, hin⟩ := lookup_eq_some hl
  obtain ⟨-, ⟨i, ho, -, hm⟩ | ⟨ho, -, hb⟩⟩ := lookupIn_eq_some hin
  · rw [ho]
    rw [hs] at hm
    exact h.replaceMember hR hm
  · rw [ho]
    rw [hs] at hb
    dsimp only
    have hset : Kept R id m₀ (m.setSlot r.frame n (.value (.closure g))) := by
      by_cases hi : Open id m₀ r.frame
      · exact h.setSlot (.inl hi)
      · obtain ⟨hne, hlt⟩ := not_or.mp hi
        have hold := h.frame r.frame (by omega) hne
        exact h.setSlot (.inr ⟨hold.name, hold.record, Bindings.Kept.set hold.bindings hb hR⟩)
    split
    · exact hset.of_eq rfl rfl
    · exact hset

end Replace

end ModuleScript.Machine
