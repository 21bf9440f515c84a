import ModuleScript.Proofs.Conduct.Changes
import ModuleScript.Proofs.Imports.Exported

/-!
# Exports beside the frame of a file

What a file exports and what its own frame binds are written separately: by public bindings, by
modules and their rollback, and by new variants of functions. Each of these actions keeps the two in
step if it runs on behalf of the file itself, or does not take a name that the file exports.
-/

set_option autoImplicit false

namespace ModuleScript

open Eval

/-- Exports and the frame that they are to agree with: the exports are those of a source that may
still run, or what a source has exported in the end. Names are of interest even where values are not. -/
structure Catalog where
  /-- The table of a source that may still run. -/
  own : Option ExportsId
  /-- The exports where there is no such table. -/
  settled : Exports
  frame : FrameId
  /-- The names that may be exported. -/
  names : List Ident
  /-- Whether values are to agree. -/
  strict : Prop

/-- The names to which a statement gives a meaning where it runs, each with whether this may be
public. -/
def Stmt.takes : Stmt → List (Ident × Bool)
  | .module _ _ n _ => [(n, true)]
  | s => s.binds

namespace Machine

/-- Binds a name in a frame, or takes its binding away. -/
def putSlot (m : Machine) (i : FrameId) (n : Ident) : Option Slot → Machine
  | some s => m.setSlot i n s
  | none => m.eraseSlot i n

/-- Exports a value under a name, or nothing. -/
def putExport (m : Machine) (i : ExportsId) (n : Ident) : Option Value → Machine
  | some v => m.setExport i n v
  | none => m.eraseExport i n

variable (m : Machine) (i j : Nat) (n k : Ident)

theorem get?_putSlot (o : Option Slot) :
    ((m.putSlot i n o).frame j).bindings.get? k =
      if (i = j ∧ i < m.frames.size) ∧ n = k then o else (m.frame j).bindings.get? k := by
  cases o with
  | some s =>
    unfold putSlot setSlot
    rw [frame_modify_eq]
    by_cases hi : i = j ∧ i < m.frames.size
    · rw [if_pos hi]
      simp only [and_iff_right hi]
      exact Bindings.get?_set _ n k _
    · rw [if_neg hi, if_neg fun h => hi h.1]
  | none =>
    unfold putSlot eraseSlot
    rw [frame_modify_eq]
    by_cases hi : i = j ∧ i < m.frames.size
    · rw [if_pos hi]
      simp only [and_iff_right hi]
      exact Bindings.get?_erase _ n k
    · rw [if_neg hi, if_neg fun h => hi h.1]

theorem get?_putExport (o : Option Value) :
    ((m.putExport i n o).exportsOf j).get? k =
      if (i = j ∧ i < m.exports.size) ∧ n = k then o else (m.exportsOf j).get? k := by
  cases o with
  | some v =>
    unfold putExport setExport
    rw [exportsOf_modify_eq]
    by_cases hi : i = j ∧ i < m.exports.size
    · rw [if_pos hi]
      simp only [and_iff_right hi]
      exact Bindings.get?_set _ n k _
    · rw [if_neg hi, if_neg fun h => hi h.1]
  | none =>
    unfold putExport eraseExport
    rw [exportsOf_modify_eq]
    by_cases hi : i = j ∧ i < m.exports.size
    · rw [if_pos hi]
      simp only [and_iff_right hi]
      exact Bindings.get?_erase _ n k
    · rw [if_neg hi, if_neg fun h => hi h.1]

/-- To bind a name in a frame changes no other part of the machine than the bindings of frames. -/
theorem putSlot_eq (o : Option Slot) :
    (m.putSlot i n o).frames.size = m.frames.size ∧ (m.putSlot i n o).exports = m.exports ∧
      ((m.putSlot i n o).frame j).record = (m.frame j).record := by
  have hframe : ∀ f : Frame → Frame, (∀ g, (f g).record = g.record) →
      (({ m with frames := m.frames.modify i f } : Machine).frame j).record = (m.frame j).record := by
    intro f hf
    rw [frame_modify_eq]
    split
    · exact hf _
    · rfl
  cases o with
  | some s => exact ⟨Array.size_modify, rfl, hframe _ fun _ => rfl⟩
  | none => exact ⟨Array.size_modify, rfl, hframe _ fun _ => rfl⟩

theorem putExport_eq (o : Option Value) :
    (m.putExport i n o).exports.size = m.exports.size ∧
      (m.putExport i n o).frames = m.frames := by
  cases o with
  | some v => exact ⟨Array.size_modify, rfl⟩
  | none => exact ⟨Array.size_modify, rfl⟩

end Machine

namespace Catalog

def exports (K : Catalog) (m : Machine) : Exports :=
  match K.own with
  | some x => m.exportsOf x
  | none => K.settled

/-- Only names of the catalog are exported, and each has in the frame the value that is exported. -/
structure Agrees (K : Catalog) (m : Machine) : Prop where
  frame : K.frame < m.frames.size
  outside : (m.frame K.frame).record = none
  table : ∀ x, K.own = some x → x < m.exports.size
  exported : ∀ n v, (K.exports m).get? n = some v →
    n ∈ K.names ∧ (K.strict → (m.frame K.frame).bindings.get? n = some (.value v))

/-- The source whose table this is has the frame for its own. -/
def Serves (K : Catalog) (s : Site) : Prop := K.own = some s.exports → s.globals = K.frame

/-- What the source whose table this is may run: in its frame, declarations of names of the catalog. -/
def Runs (K : Catalog) (c : Context) (s : Stmt) : Prop :=
  K.own = some c.site.exports → c.site.globals = K.frame ∧
    (c.scope.frame = K.frame → Orderly s ∧ ∀ n ∈ s.exported, n ∈ K.names)

/-- Where values are to agree, the task takes no name of the catalog in the frame, nor gives another
variant to a function under such a name, but for the source whose table this is, and publicly. -/
structure Spares (K : Catalog) (t : Task) (m : Machine) : Prop where
  takes : ∀ {c s n isPublic}, K.strict → t = .eval c s → c.scope.frame = K.frame →
    (n, isPublic) ∈ s.takes → n ∈ K.names → K.own = some c.site.exports ∧ isPublic = true
  varies : ∀ {c l n l' params body r v}, K.strict → t = .eval c (.variation l n l' params body) →
    resolve c n m = .ok (r, v) m → r.owner = none → r.frame = K.frame → n ∈ K.names →
    K.own = some c.site.exports

variable {K : Catalog} {m m' : Machine} {c : Context} {s t : Stmt} {n : Ident}

theorem runs_part (hc : K.Runs c s) (ht : t ∈ s.parts) : K.Runs c t := by
  intro hown
  obtain ⟨hg, hs⟩ := hc hown
  refine ⟨hg, fun hframe => ?_⟩
  obtain ⟨horderly, -⟩ := hs hframe
  refine ⟨horderly.part ht, fun n hn => ?_⟩
  have hdeclaration := horderly.part_isDeclaration ht
  cases t with
  | publicBinding l x e => cases hdeclaration
  | module l isPublic x body => cases hdeclaration
  | _ => cases hn

/-- Code in another frame. -/
theorem runs_elsewhere (hs : K.Serves c.site) (hc : c.scope.frame ≠ K.frame) : K.Runs c s :=
  fun hown => ⟨hs hown, fun h => absurd h hc⟩

theorem serves_of_runs (hc : K.Runs c s) : K.Serves c.site := fun hown => (hc hown).1

theorem Agrees.get?_eq_none (hm : K.Agrees m) (hn : n ∉ K.names) : (K.exports m).get? n = none :=
  Option.eq_none_iff_forall_ne_some.mpr fun v hv => hn (hm.exported n v hv).1

/-! ## Changes that leave the exports and the frame alone -/

theorem Agrees.of_same (hm : K.Agrees m) (hframes : m'.frames = m.frames)
    (hexports : m'.exports = m.exports) : K.Agrees m' := by
  have hsame : K.exports m' = K.exports m := by
    unfold exports Machine.exportsOf
    rw [hexports]
  have hframe : m'.frame K.frame = m.frame K.frame := by
    unfold Machine.frame
    rw [hframes]
  refine ⟨hframes ▸ hm.frame, hframe ▸ hm.outside, hexports ▸ hm.table, ?_⟩
  rw [hsame, hframe]
  exact hm.exported

theorem Agrees.pushFrame (hm : K.Agrees m) (f : Frame) : K.Agrees (m.pushFrame f) := by
  have hframe := Machine.frame_pushFrame m f hm.frame
  refine ⟨?_, hframe ▸ hm.outside, hm.table, ?_⟩
  · rw [Machine.pushFrame, Array.size_push]
    exact Nat.lt_succ_of_lt hm.frame
  · rw [hframe]
    exact hm.exported

theorem Agrees.pushExports (hm : K.Agrees m) :
    K.Agrees { m with exports := m.exports.push [] } := by
  have hsame : K.exports { m with exports := m.exports.push [] } = K.exports m := by
    unfold exports
    cases hx : K.own with
    | none => rfl
    | some x => exact (m.exportsOf_push x).trans (if_neg (Nat.ne_of_lt (hm.table x hx)))
  refine ⟨hm.frame, hm.outside, fun x hx => ?_, ?_⟩
  · rw [Array.size_push]
    exact Nat.lt_succ_of_lt (hm.table x hx)
  · rw [hsame]
    exact hm.exported

/-! ## Changes under one name -/

theorem exports_of_own {x : ExportsId} (hown : K.own = some x) : K.exports m = m.exportsOf x := by
  unfold exports
  rw [hown]

theorem exports_putSlot (m : Machine) (i : FrameId) (n : Ident) (o : Option Slot) :
    K.exports (m.putSlot i n o) = K.exports m := by
  unfold exports Machine.exportsOf
  rw [(m.putSlot_eq i i n o).2.1]

theorem get?_exports_putExport (hm : ∀ x, K.own = some x → x < m.exports.size) (i : ExportsId)
    (n k : Ident) (o : Option Value) :
    (K.exports (m.putExport i n o)).get? k =
      if K.own = some i ∧ n = k then o else (K.exports m).get? k := by
  unfold exports
  cases hx : K.own with
  | none => exact (if_neg fun h => by cases h.1).symm
  | some x =>
    dsimp only
    rw [Machine.get?_putExport]
    by_cases hi : i = x
    · subst hi
      have hlt := hm i hx
      by_cases hn : n = k
      · rw [if_pos ⟨⟨rfl, hlt⟩, hn⟩, if_pos ⟨rfl, hn⟩]
      · rw [if_neg fun h => hn h.2, if_neg fun h => hn h.2]
    · rw [if_neg fun h => hi h.1.1, if_neg fun h => hi (Option.some.inj h.1).symm]

/-- A name is bound in a frame anew, and exported from a table anew if it is to be. -/
def written (m : Machine) (i : FrameId) (j : ExportsId) (n : Ident) (slot : Option Slot)
    (exported : Option Value) (exports : Bool) : Machine :=
  if exports then (m.putSlot i n slot).putExport j n exported else m.putSlot i n slot

section Written

variable {i : FrameId} {j : ExportsId} {slot : Option Slot} {exported : Option Value}
  {exports : Bool} (hm : K.Agrees m)

theorem written_eq (m : Machine) :
    (written m i j n slot exported exports).frames = (m.putSlot i n slot).frames ∧
      (written m i j n slot exported exports).exports.size = m.exports.size := by
  have htables := congrArg Array.size (m.putSlot_eq i i n slot).2.1
  cases exports with
  | false => exact ⟨rfl, htables⟩
  | true =>
    obtain ⟨hsize, hframes⟩ := (m.putSlot i n slot).putExport_eq j n exported
    exact ⟨hframes, hsize.trans htables⟩

include hm

theorem get?_bindings_written (k : Ident) :
    ((written m i j n slot exported exports).frame K.frame).bindings.get? k =
      if i = K.frame ∧ n = k then slot else (m.frame K.frame).bindings.get? k := by
  have hframe : (written m i j n slot exported exports).frame K.frame =
      (m.putSlot i n slot).frame K.frame := by
    unfold Machine.frame
    rw [(written_eq m).1]
  rw [hframe, Machine.get?_putSlot]
  by_cases hi : i = K.frame
  · subst hi
    simp only [hm.frame, and_true]
  · rw [if_neg fun h => hi h.1.1, if_neg fun h => hi h.1]

theorem get?_exports_written (k : Ident) :
    (K.exports (written m i j n slot exported exports)).get? k =
      if (K.own = some j ∧ exports = true) ∧ n = k then exported else (K.exports m).get? k := by
  cases exports with
  | false =>
    rw [if_neg fun h => Bool.noConfusion h.1.2]
    exact congrArg (·.get? k) (exports_putSlot m i n slot)
  | true =>
    have htables : (m.putSlot i n slot).exports = m.exports := (m.putSlot_eq i i n slot).2.1
    change (K.exports ((m.putSlot i n slot).putExport j n exported)).get? k = _
    rw [get?_exports_putExport (htables ▸ hm.table), exports_putSlot]
    simp only [and_true]

/-- The exports and the frame stay in step if they are written together, or the frame alone under a
name that is not exported. -/
theorem Agrees.written (hhome : K.own = some j → exports = true → i = K.frame)
    (hmissed : K.strict → i = K.frame →
      (K.own = some j ∧ exports = true) ∨ (K.exports m).get? n = none)
    (hvalue : K.own = some j → exports = true → ∀ v, exported = some v →
      n ∈ K.names ∧ (K.strict → slot = some (.value v))) :
    K.Agrees (written m i j n slot exported exports) := by
  obtain ⟨hframes, htables⟩ :
      (Catalog.written m i j n slot exported exports).frames = (m.putSlot i n slot).frames ∧
        (Catalog.written m i j n slot exported exports).exports.size = m.exports.size :=
    written_eq m
  obtain ⟨hsize, -, hrecord⟩ := m.putSlot_eq i K.frame n slot
  refine ⟨?_, ?_, fun x hx => htables ▸ hm.table x hx, fun k v hv => ?_⟩
  · rw [hframes, hsize]
    exact hm.frame
  · unfold Machine.frame at hrecord ⊢
    rw [hframes, hrecord]
    exact hm.outside
  · rw [get?_exports_written hm] at hv
    rw [get?_bindings_written hm]
    split at hv
    · rename_i hwritten
      obtain ⟨⟨hown, hexports⟩, hn⟩ := hwritten
      rw [if_pos ⟨hhome hown hexports, hn⟩, ← hn]
      exact hvalue hown hexports v hv
    · rename_i hnot
      obtain ⟨hk, hbound⟩ := hm.exported k v hv
      refine ⟨hk, fun hstrict => ?_⟩
      have hkept : ¬ (i = K.frame ∧ n = k) := by
        rintro ⟨hi, rfl⟩
        rcases hmissed hstrict hi with hwritten | hnone
        · exact hnot ⟨hwritten, rfl⟩
        · rw [hnone] at hv
          cases hv
      rw [if_neg hkept]
      exact hbound hstrict

end Written

/-! ## Single actions -/

/-- A computation that leaves the exports and the frame in step. -/
def Keeps (K : Catalog) {α : Type} (x : Eval α) : Prop := ∀ m, K.Agrees m → K.Agrees (endOf (x m))

theorem Keeps.bind {α β : Type} {x : Eval α} {f : α → Eval β} (hx : K.Keeps x)
    (hf : ∀ a, K.Keeps (f a)) : K.Keeps (x >>= f) := by
  intro m hm
  have hxm := hx m hm
  cases he : x m with
  | ok a k =>
    rw [he] at hxm
    rw [bind_of_ok he]
    exact hf a k hxm
  | error e k =>
    rw [he] at hxm
    rw [bind_of_error he]
    exact hxm

theorem keeps_reads {α : Type} {x : Eval α} (hx : Reads x) : K.Keeps x := by
  intro m hm
  rcases hx m with ⟨a, ha⟩ | ⟨e, he⟩
  · rw [ha]
    exact hm
  · rw [he]
    exact hm

theorem keeps_change {f : Machine → Except Failure Machine}
    (hf : ∀ m k, f m = .ok k → K.Agrees m → K.Agrees k) : K.Keeps (change f) := by
  intro m hm
  cases hk : f m with
  | ok k =>
    rw [change_of_ok hk]
    exact hf m k hk hm
  | error e =>
    rw [change_of_error hk]
    exact hm

theorem agrees_define {v : Value} {isPublic : Bool} {u : Unit} (hm : K.Agrees m)
    (hs : K.Serves c.site)
    (hnames : K.own = some c.site.exports → c.scope.frame = K.frame → isPublic = true →
      n ∈ K.names)
    (hspares : K.strict → c.scope.frame = K.frame → n ∈ K.names →
      K.own = some c.site.exports ∧ isPublic = true)
    (hd : define c n v isPublic m = .ok u m') : K.Agrees m' := by
  unfold define at hd
  cases hd
  dsimp only
  cases hr : (m.frame c.scope.frame).record with
  | some r => exact hm.of_same rfl rfl
  | none =>
    have hwritten : K.Agrees (written m c.scope.frame c.site.exports n (some (.value v)) (some v)
        (decide (isPublic = true ∧ c.scope.frame = c.site.globals))) := by
      refine hm.written ?_ ?_ ?_
      · intro hown he
        exact (of_decide_eq_true he).2.trans (hs hown)
      · intro hstrict hframe
        by_cases hn : n ∈ K.names
        · obtain ⟨hown, hpublic⟩ := hspares hstrict hframe hn
          exact .inl ⟨hown, decide_eq_true ⟨hpublic, hframe.trans (hs hown).symm⟩⟩
        · exact .inr (hm.get?_eq_none hn)
      · rintro hown he _ ⟨⟩
        obtain ⟨hpublic, hframe⟩ := of_decide_eq_true he
        exact ⟨hnames hown (hframe.trans (hs hown)) hpublic, fun _ => rfl⟩
    unfold written at hwritten
    simp only [decide_eq_true_eq] at hwritten
    exact hwritten

/-- A function gets another variant where it was found. -/
theorem agrees_replace {r : Resolution} {v : Value} {u : Unit} (hm : K.Agrees m)
    (hs : K.Serves c.site)
    (hspares : K.strict → r.owner = none → r.frame = K.frame → n ∈ K.names →
      K.own = some c.site.exports)
    (hd : replace c r n v m = .ok u m') : K.Agrees m' := by
  unfold replace at hd
  cases hd
  dsimp only
  cases ho : r.owner with
  | some i => exact hm.of_same rfl rfl
  | none =>
    have htables : (m.setSlot r.frame n (.value v)).exportsOf c.site.exports =
        m.exportsOf c.site.exports := rfl
    have hwritten : K.Agrees (written m r.frame c.site.exports n (some (.value v)) (some v)
        (decide (r.frame = c.site.globals ∧ (m.exportsOf c.site.exports).has n = true))) := by
      refine hm.written ?_ ?_ ?_
      · intro hown he
        exact (of_decide_eq_true he).1.trans (hs hown)
      · intro hstrict hframe
        by_cases hn : (K.exports m).get? n = none
        · exact .inr hn
        · obtain ⟨w, hw⟩ := Option.ne_none_iff_exists'.mp hn
          have hown := hspares hstrict ho hframe (hm.exported n w hw).1
          refine .inl ⟨hown, decide_eq_true ⟨hframe.trans (hs hown).symm, ?_⟩⟩
          rw [← exports_of_own hown, Bindings.has_eq_isSome, hw]
          rfl
      · rintro hown he _ ⟨⟩
        obtain ⟨-, hhas⟩ := of_decide_eq_true he
        rw [← exports_of_own hown, Bindings.has_eq_isSome] at hhas
        obtain ⟨w, hw⟩ := Option.isSome_iff_exists.mp hhas
        exact ⟨(hm.exported n w hw).1, fun _ => rfl⟩
    unfold written at hwritten
    simp only [decide_eq_true_eq] at hwritten
    rw [htables]
    exact hwritten

/-- A module whose body has been run may be rolled back. -/
structure Restorable (K : Catalog) (c : Context) (n : Ident) (old : Previous) : Prop where
  serves : K.Serves c.site
  spares : K.strict → c.scope.frame = K.frame → n ∈ K.names → K.own = some c.site.exports
  old : K.own = some c.site.exports → c.scope.frame = K.frame → ∀ v, old.exported = some v →
    n ∈ K.names ∧ (K.strict → old.slot = some (.value v))

theorem agrees_restore {old : Previous} (hm : K.Agrees m) (ho : K.Restorable c n old) :
    K.Agrees (restore c n old m) := by
  unfold restore
  cases hr : (m.frame c.scope.frame).record with
  | some r => exact hm.of_same rfl rfl
  | none =>
    have hwritten : K.Agrees (written m c.scope.frame c.site.exports n old.slot old.exported
        (decide (c.scope.frame = c.site.globals))) := by
      refine hm.written ?_ ?_ ?_
      · intro hown he
        exact (of_decide_eq_true he).trans (ho.serves hown)
      · intro hstrict hframe
        by_cases hn : n ∈ K.names
        · have hown := ho.spares hstrict hframe hn
          exact .inl ⟨hown, decide_eq_true (hframe.trans (ho.serves hown).symm)⟩
        · exact .inr (hm.get?_eq_none hn)
      · intro hown he
        exact ho.old hown ((of_decide_eq_true he).trans (ho.serves hown))
    obtain ⟨slot, exported⟩ := old
    unfold written at hwritten
    simp only [decide_eq_true_eq] at hwritten
    cases slot <;> cases exported <;> exact hwritten

theorem agrees_vary {v : Variant} (hm : K.Agrees m) (hs : K.Serves c.site)
    (hspares : K.strict → ∀ r u, resolve c n m = .ok (r, u) m → r.owner = none →
      r.frame = K.frame → n ∈ K.names → K.own = some c.site.exports) :
    K.Agrees (endOf (vary c n v m)) := by
  unfold vary
  rcases reads_resolve c n m with ⟨⟨r, u⟩, he⟩ | ⟨e, he⟩
  · rw [bind_of_ok he]
    cases u with
    | closure f =>
      dsimp only
      split
      · exact hm
      · have hnew : K.Agrees { m with functions := m.functions + 1 } := hm.of_same rfl rfl
        exact agrees_replace hnew hs (fun hstrict => hspares hstrict r _ he) rfl
    | _ => exact hm
  · rw [bind_of_error he]
    exact hm

theorem keeps_declareMembers (i : RecordId) (body : List Stmt) :
    K.Keeps (declareMembers i body) := by
  unfold declareMembers
  induction body.filterMap declared? with
  | nil => exact fun _ hm => hm
  | cons p rest ih =>
    refine Keeps.bind (keeps_change fun m k hk hm => ?_) fun _ => ih
    obtain ⟨r, -, rfl⟩ := declare_eq_ok hk
    exact hm.of_same rfl rfl

/-- What holds once a module has been opened: the code of its body may run, and it may be rolled
back. -/
structure Opens (K : Catalog) (c : Context) (n : Ident) (body : List Stmt) (o : Opened) : Prop where
  body : ∀ s ∈ body, K.Runs o.inner s
  restorable : K.Restorable c n o.old

theorem agrees_openModule {l : Location} {isPublic : Bool} {body : List Stmt} (hm : K.Agrees m)
    (hc : K.Runs c (.module l isPublic n body))
    (hspares : K.strict → c.scope.frame = K.frame → n ∈ K.names → K.own = some c.site.exports) :
    K.Agrees (endOf (openModule c isPublic n m)) ∧
      ∀ o k, openModule c isPublic n m = .ok o k → K.Opens c n body o := by
  have hs := serves_of_runs hc
  unfold openModule
  cases hr : register c n m with
  | error e m' =>
    rw [bind_of_error hr]
    refine ⟨?_, nofun⟩
    rw [Invariant.machine_of_register_error hr]
    exact hm
  | ok r m₁ =>
    obtain ⟨i, p, isOutermost⟩ := r
    have hm₁ : K.Agrees m₁ := by
      obtain ⟨-, -, -, rfl⟩ := Machine.register_eq_ok hr
      exact hm.of_same rfl rfl
    have hd : define c n (.module i p) (isPublic || isOutermost) m₁ = .ok ⟨⟩ _ := rfl
    have hm₂ := agrees_define hm₁ hs
      (fun hown hframe _ => ((hc hown).2 hframe).2 n (.head _))
      (fun hstrict hframe hn => ⟨hspares hstrict hframe hn, by
        rw [Machine.register_isOutermost hr, hframe, hm.outside]
        exact Bool.or_true _⟩) hd
    rw [bind_of_ok hr]
    dsimp only
    rw [get_bind, bind_of_ok hd]
    refine ⟨hm₂.pushFrame _, ?_⟩
    rintro o k ⟨⟩
    refine ⟨fun s _ => runs_elsewhere hs (Nat.ne_of_gt hm₂.frame), hs, hspares, ?_⟩
    intro hown hframe v hv
    obtain ⟨hn, hbound⟩ := hm₁.exported n v (exports_of_own hown ▸ hv)
    refine ⟨hn, fun hstrict => ?_⟩
    change (m₁.frame c.scope.frame).bindings.get? n = some (.value v)
    rw [hframe]
    exact hbound hstrict

end Catalog

end ModuleScript
