import ModuleScript.Proofs.Afresh.Runs
import ModuleScript.Proofs.Modules.Runs
import ModuleScript.Proofs.Privacy.Confinement
import ModuleScript.Proofs.Scopes.Extent
import ModuleScript.Proofs.Scopes.Untouched

/-!
# What was made in vain

If a run has left untouched all that there was, then nothing refers to what it has made but the
modules that it has registered and the files that it has loaded. A session that comes to none of these
shows the same as if the run had never been.
-/

set_option autoImplicit false

namespace ModuleScript

open Eval Session

namespace Machine

/-- All that the machine refers to has been made: frames, functions, and modules. -/
structure Sealed (m : Machine) : Prop where
  ranged : m.Ranged
  modules : ∃ D : Discipline, m.Holds (D.Valid m)
  registered : ∀ {p i}, m.module? p = some i → i < m.records.size

/-- One of the machines knows a module of this path that the other does not. -/
def ModulesDiffer (m k : Machine) (p : ModulePath) : Prop := k.module? p ≠ m.module? p

/-- One of the machines has loaded the file and the other has not, or they have got different exports. -/
def FilesDiffer (m k : Machine) (p : Path) : Prop := k.loaded? p ≠ m.loaded? p

/-- The gaps that a run leaves which began on the one machine and ended on the other. -/
def gaps (m k : Machine) (hm : m.Sealed) : Gaps where
  frames := ⟨m.frames.size, k.frames.size - m.frames.size⟩
  records := ⟨m.records.size, k.records.size - m.records.size⟩
  exports := ⟨m.exports.size, k.exports.size - m.exports.size⟩
  functions := ⟨m.functions, k.functions - m.functions⟩
  order := .refl Nat
  modules := m.ModulesDiffer k
  files := m.FilesDiffer k
  ground := hm.ranged.base
  ordered _ _ := rfl

variable {m k : Machine}

theorem matches_gaps (hm : m.Sealed) (k : Machine) {D : Discipline} {v : Value}
    (hc : v.Carries m.extent.HasClosure) (hv : D.Valid m v) : (m.gaps k hm).like.Matches v v := by
  have hclosure : ∀ {a b}, (Likeness.only m.extent.HasClosure).closure a b →
      (m.gaps k hm).like.closure a b := by
    rintro a _ ⟨rfl, ha⟩
    have hscope : ∀ v ∈ a.variants, ∀ i ∈ v.scope.chain, (m.gaps k hm).frames.past i = i :=
      fun v hv i hi => Gap.past_of_lt (ha.scope v hv i hi)
    exact (Closure.past_eq (Gap.past_of_lt ha.identity) hscope).symm
  have hmodule : ∀ {i p j q}, (D.like m).module i p j q → (m.gaps k hm).like.module i p j q := by
    rintro i p _ _ ⟨rfl, rfl, hi, -⟩
    exact ⟨(Gap.past_of_lt hi).symm, rfl⟩
  exact Likeness.Matches.of_both hclosure hmodule hc hv

theorem Sealed.holds (hm : m.Sealed) (k : Machine) :
    m.Holds fun v => (m.gaps k hm).like.Matches v v := by
  obtain ⟨D, hmodules⟩ := hm.modules
  exact (hm.ranged.holds.and hmodules).mono fun _ hv => matches_gaps hm k hv.1 hv.2

theorem sizes_of_le {a b : Nat} (h : a ≤ b) : (Gap.mk a (b - a)).Sizes b a :=
  ⟨Nat.le_refl a, (Nat.add_sub_of_le h).symm⟩

theorem le_past {a b i : Nat} (h : a ≤ b) (hi : ¬ i < a) : b ≤ (Gap.mk a (b - a)).past i := by
  unfold Gap.past
  rw [if_neg hi]
  dsimp only
  omega

section Untouched

variable (hm : m.Sealed) (hu : m.Untouched k)

include hu

theorem frame_gaps (i : FrameId) : k.frame ((m.gaps k hm).frames.past i) = m.frame i := by
  by_cases hi : i < m.frames.size
  · rw [Gap.past_of_lt hi, hu.frame i hi]
  · have hk : k.frames.size ≤ (m.gaps k hm).frames.past i := le_past hu.frames_size hi
    unfold frame
    rw [Array.getElem?_eq_none hk, Array.getElem?_eq_none (Nat.le_of_not_lt hi)]

theorem record_gaps (i : RecordId) : k.record ((m.gaps k hm).records.past i) = m.record i := by
  by_cases hi : i < m.records.size
  · rw [Gap.past_of_lt hi, hu.record i hi]
  · have hk : k.records.size ≤ (m.gaps k hm).records.past i := le_past hu.records_size hi
    unfold record
    rw [Array.getElem?_eq_none hk, Array.getElem?_eq_none (Nat.le_of_not_lt hi)]

theorem exportsOf_gaps (i : ExportsId) :
    k.exportsOf ((m.gaps k hm).exports.past i) = m.exportsOf i := by
  by_cases hi : i < m.exports.size
  · rw [Gap.past_of_lt hi, hu.exported i hi]
  · have hk : k.exports.size ≤ (m.gaps k hm).exports.past i := le_past hu.exports_size hi
    unfold exportsOf
    rw [Array.getElem?_eq_none hk, Array.getElem?_eq_none (Nat.le_of_not_lt hi)]

end Untouched

/-- The machine on which a run ends that leaves everything untouched is the one that it began on, but
for a gap and for what has been read, written and begun to be loaded. -/
theorem gapped_of_untouched (hm : m.Sealed) (hu : m.Untouched k) (hf : m.functions ≤ k.functions)
    (paths : List Path) :
    ({ k with loading := paths } : Machine).Gapped (m.gaps k hm)
      { m with loading := paths, input := k.input, written := k.written } := by
  have hholds := hm.holds k
  have hexports : ∀ {e : Exports}, (∀ {n v}, (n, v) ∈ e → (m.gaps k hm).like.Matches v v) →
      (m.gaps k hm).like.Exported e e := fun he => Bindings.related_refl fun _ hp => he hp
  have hframe := frame_gaps hm hu
  have hrecord := record_gaps hm hu
  have hexport := exportsOf_gaps hm hu
  exact {
    frames := sizes_of_le hu.frames_size
    records := sizes_of_le hu.records_size
    exports := sizes_of_le hu.exports_size
    functions := sizes_of_le hf
    frame := fun i => by
      change (k.frame _).Gapped _ (m.frame i)
      rw [hframe]
      refine ⟨rfl, ?_, Likeness.contents_refl hholds.slot⟩
      cases hr : (m.frame i).record with
      | none => rfl
      | some r => exact congrArg some (Gap.past_of_lt (hm.ranged.attached hr)).symm
    record := fun i => by
      change (k.record _).Gapped _ (m.record i)
      rw [hrecord]
      exact ⟨rfl, fun vis => (Likeness.contents_refl (hholds.member vis)).get?⟩
    registered := fun p hp => by
      have he : k.module? p = m.module? p := Classical.not_not.mp hp
      change k.module? p = (m.module? p).map _
      rw [he]
      cases hi : m.module? p with
      | none => rfl
      | some i => exact congrArg some (Gap.past_of_lt (hm.registered hi)).symm
    exported := fun i => by
      change (m.gaps k hm).like.Exported (k.exportsOf _) (m.exportsOf i)
      rw [hexport]
      exact hexports hholds.exporting.exports
    loaded := fun p hp => by
      have he : k.loaded? p = m.loaded? p := Classical.not_not.mp hp
      change Option.Rel _ (k.loaded? p) (m.loaded? p)
      rw [he]
      cases hi : m.loaded? p with
      | none => exact .none
      | some e =>
        obtain ⟨⟨q, d⟩, hfind, rfl⟩ := Option.map_eq_some_iff.mp hi
        exact .some (hexports (hholds.exporting.loaded (List.mem_of_find?_eq_some hfind)))
    loading := rfl
    input := rfl
    written := rfl }

/-- Whatever files are being loaded, later commands that come to nothing that the machines know
differently show the same on the second as on the first with the input that is left and the output that
there is on the second. -/
def SameShown (h : Host) (m k : Machine) : Prop :=
  ∀ paths later,
    Session.Avoids (m.ModulesDiffer k) (m.FilesDiffer k)
      ⟨h, { m with loading := paths, input := k.input, written := k.written }⟩ later →
    Session.shows ⟨h, { k with loading := paths }⟩ later =
      Session.shows ⟨h, { m with loading := paths, input := k.input, written := k.written }⟩ later

/-- After a run that leaves everything untouched a session shows the same as if it had never been. -/
theorem sameShown_of_untouched (hm : m.Sealed) (hu : m.Untouched k) (hf : m.functions ≤ k.functions)
    (h : Host) : SameShown h m k :=
  fun paths _ ha => Gaps.shows_eq (gapped_of_untouched hm hu hf paths) ha

/-! ## Sessions -/

theorem holds_of_sound {h : Host} {commands : List Command} (hs : (confinement h commands).Sound m) :
    m.Holds ((confinement h commands).Valid m) where
  slot := hs.slots
  member vis hv := by
    cases vis with
    | isPublic => exact hs.publicMembers hv
    | isPrivate => exact hs.privateMembers hv id
  exporting := ⟨hs.exports, hs.loaded⟩

end Machine

/-- The machine is sealed when the task begins, and a node is evaluated in frames that there are. -/
def Task.BeginsSealed (t : Task) (m : Machine) : Prop :=
  m.Sealed ∧ ∀ c s, t = .eval c s → m.extent.HasContext c

/-- In every session all that anything refers to has been made. -/
theorem Machine.begins_sealed (h : Host) (input : Text) (history : List Command) (command : Command) :
    Throughout h h.depth Task.BeginsSealed (command.perform h) (after h input history).machine := by
  have hranged := begins_ranged h input history command
  have hmodules : Throughout h h.depth (fun _ m => ∃ D : Discipline, m.Holds (D.Valid m))
      (command.perform h) (after h input history).machine :=
    Confinement.throughout_of_confinement (fun hs _ => ⟨_, holds_of_sound hs⟩) input
  have htable : Throughout h h.depth (fun _ m => m.WellFormed) (command.perform h)
      (after h input history).machine :=
    ModuleTable.throughout_perform h input history command fun _ _ hk _ => hk.1
  have huniform := Invariant.uniform_perform h command (after h input history).machine
  refine Invariant.throughout_imp huniform
    (Invariant.throughout_and huniform hranged
      (Invariant.throughout_and huniform hmodules htable)) ?_
  rintro t k ⟨⟨hk, hcontext⟩, hmodules, hwell⟩
  exact ⟨⟨hk, hmodules, fun hp => (hwell.stored (mem_registry_of_module? hp)).1⟩, hcontext⟩

end ModuleScript
