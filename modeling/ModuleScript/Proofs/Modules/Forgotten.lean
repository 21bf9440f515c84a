import ModuleScript.Proofs.Afresh.Unchanged
import ModuleScript.Proofs.Modules.Rollback

/-!
# Failed modules are forgotten

If a module at the top of a source fails, its body has written to nothing that there was before but
the name of the module, and that is put back; functions from before that its body has given more
variants apart. So a session shows the same afterwards as if the module had never been declared.
-/

set_option autoImplicit false

namespace ModuleScript

open Eval Session

/-! ## Putting a name back -/

namespace Bindings

variable {α : Type}

/-- Binds the name again to what it was bound to, or to nothing. -/
def putBack (b : Bindings α) (n : Ident) : Option α → Bindings α
  | none => b.erase n
  | some a => b.set n a

theorem putBack_cons {x n : Ident} (hx : x ≠ n) (s : α) (b : Bindings α) (old : Option α) :
    putBack ((x, s) :: b) n old = (x, s) :: putBack b n old := by
  cases old with
  | none => simp [putBack, erase, hx]
  | some a => simp [putBack, set, hx]

/-- What is put back is in its place. -/
theorem putBack_set (b : Bindings α) (n : Ident) (a : α) :
    (b.set n a).putBack n (b.get? n) = b := by
  induction b with
  | nil => simp [set, get?, putBack, erase]
  | cons p rest ih =>
    obtain ⟨x, old⟩ := p
    by_cases hx : x = n
    · subst hx
      simp [set, get?_cons, putBack]
    · rw [set, if_neg hx, get?_cons, if_neg hx, putBack_cons hx, ih]

end Bindings

namespace Forgetting

variable {h : Host} {m k : Machine} {c : Context} {n : Ident} {old : Previous}

theorem frame_restore (hout : (k.frame c.scope.frame).record = none) (i : FrameId) :
    (restore c n old k).frame i =
      if c.scope.frame = i ∧ c.scope.frame < k.frames.size then
        { k.frame i with bindings := (k.frame i).bindings.putBack n old.slot }
      else k.frame i := by
  obtain ⟨slot, exported⟩ := old
  have hframes : (restore c n ⟨slot, exported⟩ k).frames =
      k.frames.modify c.scope.frame fun f => { f with bindings := f.bindings.putBack n slot } := by
    unfold restore
    rw [hout]
    cases slot <;> cases exported <;> dsimp only <;> split <;> rfl
  rw [Machine.frame, hframes]
  exact Machine.frame_modify_eq k c.scope.frame i _

theorem records_restore (hout : (k.frame c.scope.frame).record = none) :
    (restore c n old k).records = k.records := by
  obtain ⟨slot, exported⟩ := old
  unfold restore
  rw [hout]
  cases slot <;> cases exported <;> dsimp only <;> split <;> rfl

theorem exportsOf_restore (hout : (k.frame c.scope.frame).record = none)
    (hown : c.scope.frame = c.site.globals) (i : ExportsId) :
    (restore c n old k).exportsOf i =
      if c.site.exports = i ∧ c.site.exports < k.exports.size then
        (k.exportsOf i).putBack n old.exported
      else k.exportsOf i := by
  obtain ⟨slot, exported⟩ := old
  have hexports : (restore c n ⟨slot, exported⟩ k).exports =
      k.exports.modify c.site.exports fun e => e.putBack n exported := by
    unfold restore
    rw [hout]
    dsimp only
    rw [if_pos hown]
    cases slot <;> cases exported <;> rfl
  rw [Machine.exportsOf, hexports]
  exact Machine.exportsOf_modify_eq k c.site.exports i _

/-! ## The body of the module -/

/-- The machine on which the name is bound, at the top of a source, and exported. -/
def bound (m : Machine) (c : Context) (n : Ident) (v : Value) : Machine :=
  (m.setSlot c.scope.frame n (.value v)).setExport c.site.exports n v

variable {v : Value}

theorem frame_bound (i : FrameId) : (bound m c n v).frame i =
    if c.scope.frame = i ∧ c.scope.frame < m.frames.size then
      { m.frame i with bindings := (m.frame i).bindings.set n (.value v) }
    else m.frame i :=
  Machine.frame_modify_eq m c.scope.frame i _

theorem exportsOf_bound (i : ExportsId) : (bound m c n v).exportsOf i =
    if c.site.exports = i ∧ c.site.exports < m.exports.size then (m.exportsOf i).set n v
    else m.exportsOf i :=
  Machine.exportsOf_modify_eq m c.site.exports i _

theorem frames_size_bound : (bound m c n v).frames.size = m.frames.size := by
  simp [bound, Machine.setSlot, Machine.setExport]

theorem exports_size_bound : (bound m c n v).exports.size = m.exports.size := by
  simp [bound, Machine.setSlot, Machine.setExport]

/-- Where only the name was bound, all is as before once the name is put back. -/
theorem untouched_restore (htop : c.AtTop m) (hc : c.scope.frame < m.frames.size)
    (hu : (bound m c n v).Untouched k) (p : ModulePath) :
    m.Untouched (restore c n (previous c n m) (k.removeModule p)) := by
  have hremoved : (bound m c n v).Untouched (k.removeModule p) := hu.of_eq rfl rfl rfl
  generalize k.removeModule p = k' at hremoved ⊢
  have hframes := hremoved.frames_size
  have hexports := hremoved.exports_size
  have hframe := hremoved.frame
  have hexported := hremoved.exported
  have hattached := hremoved.attached
  rw [frames_size_bound] at hframes hframe hattached
  rw [exports_size_bound] at hexports hexported
  have hout : (k'.frame c.scope.frame).record = none := by
    rw [hframe _ hc, frame_bound, if_pos ⟨rfl, hc⟩]
    exact htop.outside
  have hchanges := Rollback.changes_restore c n (previous c n m) k'
  refine ⟨?_, ?_, ?_, fun i hi => ?_, fun i hi => ?_, fun i hi => ?_, fun i r hi hr => ?_⟩
  · rw [hchanges.frames_size]
    exact hframes
  · rw [records_restore hout]
    exact hremoved.records_size
  · rw [hchanges.exports_size]
    exact hexports
  · rw [frame_restore hout, hframe i hi, frame_bound]
    by_cases he : c.scope.frame = i
    · subst he
      rw [if_pos ⟨rfl, Nat.lt_of_lt_of_le hi hframes⟩, if_pos ⟨rfl, hi⟩]
      dsimp only [previous]
      rw [Bindings.putBack_set]
    · rw [if_neg fun hp => he hp.1, if_neg fun hp => he hp.1]
  · rw [Machine.record, records_restore hout]
    exact hremoved.record i hi
  · rw [exportsOf_restore hout htop.own, hexported i hi, exportsOf_bound]
    by_cases he : c.site.exports = i
    · subst he
      rw [if_pos ⟨rfl, Nat.lt_of_lt_of_le hi hexports⟩, if_pos ⟨rfl, hi⟩]
      exact Bindings.putBack_set _ _ _
    · rw [if_neg fun hp => he hp.1, if_neg fun hp => he hp.1]
  · rw [hchanges.attached] at hr
    exact hattached i r hi hr

theorem define_top (htop : c.AtTop m) (n : Ident) (v : Value) :
    define c n v true m = .ok ⟨⟩ (bound m c n v) := by
  unfold define
  change EStateM.Result.ok _ _ = _
  dsimp only
  rw [htop.outside]
  dsimp only
  rw [if_pos ⟨rfl, htop.own⟩]
  rfl

/-- To open a module at the top of a source binds its name; the body runs in a frame of its own. -/
theorem openModule_bound {isPublic : Bool} {o : Opened} (htop : c.AtTop m)
    (ho : openModule c isPublic n m = .ok o k) :
    (bound m c n (.module o.id o.path)).Untouched k ∧ m.records.size ≤ o.id ∧
      m.frames.size ≤ o.inner.scope.frame ∧ o.inner.site = c.site := by
  unfold openModule at ho
  cases hr : Eval.register c n m with
  | error e k' =>
    rw [bind_of_error hr] at ho
    cases ho
  | ok r k' =>
    obtain ⟨i, p, isOutermost⟩ := r
    have houtermost := Machine.register_isOutermost hr
    rw [htop.outside] at houtermost
    obtain ⟨-, -, rfl, hk'⟩ := Machine.register_eq_ok hr
    have htop' : c.AtTop k' := ⟨htop.own, hk' ▸ htop.outside⟩
    have hpublic : (isPublic || isOutermost) = true := by
      rw [houtermost]
      exact Bool.or_true isPublic
    rw [bind_of_ok hr] at ho
    dsimp only at ho
    rw [get_bind, hpublic, bind_of_ok (define_top htop' n _)] at ho
    cases ho
    subst hk'
    have hsize : (bound m c n (.module m.records.size p)).records.size = m.records.size := rfl
    have hrecord := (Machine.untouched_refl (bound m c n (.module m.records.size p))).pushRecord
      { path := p, parent := (m.frame c.scope.frame).record } (m.registry ++ [(p, m.records.size)])
    refine ⟨hrecord.pushFrame fun r hr => ?_, Nat.le_refl _, ?_, rfl⟩
    · cases hr
      exact Nat.le_refl _
    · exact Nat.le_of_eq frames_size_bound.symm

/-- The machines have as many frames and records, so what is inward on the one is on the other. -/
theorem inward_bound : (bound m c n v).Inward = m.Inward := by
  funext t k
  refine propext (forall_congr' fun d => forall_congr' fun l => forall_congr' fun x =>
    forall_congr' fun l' => forall_congr' fun ps => forall_congr' fun body => forall_congr' fun r =>
    forall_congr' fun _ => forall_congr' fun _ => ?_)
  constructor
  · rintro ⟨hmember, hslot⟩
    rw [frames_size_bound] at hslot
    exact ⟨hmember, hslot⟩
  · rintro ⟨hmember, hslot⟩
    rw [← frames_size_bound] at hslot
    exact ⟨hmember, hslot⟩

/-- Wherever the body of a module ends, it has left untouched what there was when it was opened. -/
theorem body_untouched {depth : Nat} {w : Work} {o : Opened} {body : List Stmt} {e : Failure} {k' : Machine}
    (hc : c.scope.frame < m.frames.size) (htop : c.AtTop m)
    (hk : (bound m c n v).Untouched k) (hid : m.records.size ≤ o.id)
    (hframe : m.frames.size ≤ o.inner.scope.frame) (hsite : o.inner.site = c.site)
    (he : (do
      declareMembers o.id body
      let _ ← ((Conduct.checked h m.Inward depth).below h w).stmts o.inner body
      return Value.module o.id o.path : Eval Value) k = .error e k') :
    (bound m c n v).Untouched k' := by
  let C := Conduct.untouched (bound m c n v)
  let self := (Conduct.checked h m.Inward depth).below h w
  have hall : C.actions.Follows self self := by
    refine Actions.Follows.below ?_ h w
    rw [← inward_bound]
    exact Conduct.untouched_follows (bound m c n v) h depth
  have hserves : (bound m c n v).Serves o.inner.site := by
    intro hglobals
    rw [frames_size_bound, hsite, ← htop.own] at hglobals
    exact absurd hc (Nat.not_lt.mpr hglobals)
  have hcode : ∀ s, C.Code ⟨⟩ o.inner s := fun s => by
    refine ⟨?_, hserves⟩
    rw [frames_size_bound]
    exact hframe
  have hmembers : C.Keeps ⟨⟩ (fun _ _ => True) (declareMembers o.id body) :=
    Conduct.keeps_declareMembers (C := C) (w := ⟨⟩) hid body
  have hbody : C.worlds.Agree ⟨⟩ (fun _ _ _ => True)
      (do
        declareMembers o.id body
        let _ ← self.stmts o.inner body
        return Value.module o.id o.path : Eval Value)
      (do
        declareMembers o.id body
        let _ ← self.stmts o.inner body
        return Value.module o.id o.path : Eval Value) := by
    have hagree : C.worlds.Agree ⟨⟩ (fun _ _ _ => True) (declareMembers o.id body)
        (declareMembers o.id body) := hmembers.agree fun _ _ _ _ => trivial
    refine hagree.bind fun w _ _ _ _ => ?_
    have hstmts := Actions.decls_agree hall (w := w)
      (List.forall₂_same.mpr fun s (_ : s ∈ body) => ⟨rfl, rfl, hcode s⟩)
    exact hstmts.bind fun _ _ _ _ _ => Worlds.agree_pure trivial
  obtain ⟨_, -, -, hend⟩ := (hbody k k ⟨rfl, hk⟩).machines
  rw [he] at hend
  exact hend

/-- A module at the top of a source that fails has left all that there was untouched, if no function
from before has been given another variant. -/
theorem untouched_of_error (htop : c.AtTop m) (hc : c.scope.frame < m.frames.size)
    {depth : Nat} {l : Location} {isPublic : Bool} {body : List Stmt} {e : Failure}
    (hin : Throughout h depth m.Inward (fun self => self (.eval c (.module l isPublic n body))) m)
    (he : run h depth (.eval c (.module l isPublic n body)) m = .error e k) : m.Untouched k := by
  cases depth with
  | zero =>
    cases he
    exact Machine.untouched_refl m
  | succ depth =>
    have hrun := hin fun _ => throw .tooDeep
    dsimp only at hrun
    rw [← hrun, watched_of_check (Machine.inward_of_not_variation rfl m)] at he
    obtain ⟨e', he'⟩ := located_eq_error he
    change declareModule ((Conduct.checked h m.Inward depth).below h (.node .module l)) c isPublic n
      body m = .error e' k at he'
    unfold declareModule at he'
    rcases Invariant.openModule_cases c isPublic n m with ⟨o, k', ho⟩ | ⟨f, hf⟩
    · obtain ⟨-, hpath, hold⟩ := Rollback.openModule_eq_ok ho
      obtain ⟨hbound, hid, hframe, hsite⟩ := openModule_bound htop ho
      rw [bind_of_ok ho] at he'
      obtain ⟨k₂, hbody, rfl⟩ := mending_eq_error he'
      rw [hold]
      exact untouched_restore htop hc (body_untouched hc htop hbound hid hframe hsite hbody) o.path
    · rw [bind_of_error hf] at he'
      cases he'
      exact Machine.untouched_refl m

/-! ## Sessions -/

/-- Nothing is left of the failed module that later commands could come to: all frames, modules and
tables of exports are as they were, and refer to what there was only; the modules at or below the path
are registered that were before; and later commands show the same as if it had never been declared. -/
structure Forgotten (h : Host) (m : Machine) (p : ModulePath) (k : Machine) : Prop where
  untouched : m.Untouched k
  isSealed : m.Sealed
  dropped : ∀ {q}, p.within q = true → k.module? q = m.module? q
  registered : ∀ {q i}, m.module? q = some i → k.module? q = some i
  shown : m.SameShown h k

/-- A declaration of a module at the top of a source that fails is forgotten, if no function from before
is given another variant meanwhile. -/
def Forgets (h : Host) (t : Task) (m : Machine) : Prop :=
  ∀ c l isPublic n body, t = .eval c (.module l isPublic n body) → c.AtTop m →
    ∀ depth e k, run h depth t m = .error e k →
      Throughout h depth m.Inward (fun self => self t) m → Forgotten h m (m.pathFor c n) k

theorem functions_run (hm : m.Ranged) {t : Task} (ht : Conduct.ranged.Allows m.extent t)
    (h : Host) (depth : Nat) : m.functions ≤ (endOf (run h depth t m)).functions := by
  have hfits : Conduct.ranged.Fits m.extent m := ⟨rfl, hm⟩
  obtain ⟨w, hl, hw, -⟩ :=
    Conduct.run_fits (Conduct.ranged_files h).imports trivial hfits ht depth
  obtain rfl : w = _ := hw
  exact hl.functions

theorem forgets (hm : m.WellFormed) {t : Task} (ht : t.BeginsSealed m)
    (hhosts : ∀ c s, t = .eval c s → s.isModule = true → m.Hosts c.scope.frame) :
    Forgets h t m := by
  rintro c l isPublic n body rfl htop depth e k he hin
  obtain ⟨hsealed, hcontext⟩ := ht
  have hc := hcontext c _ rfl
  have hrolled := Rollback.rolledBack_of_error hm (hhosts c _ rfl rfl) htop he
  have huntouched := untouched_of_error htop (hc.scope _ (.head _)) hin he
  have hfunctions := functions_run hsealed.ranged (t := .eval c (.module l isPublic n body)) hc h depth
  rw [he] at hfunctions
  exact ⟨huntouched, hsealed, hrolled.dropped, hrolled.registered,
    Machine.sameShown_of_untouched hsealed huntouched hfunctions h⟩

/-- In every session a module that fails at the top of a source, whatever its body did, is forgotten:
what is evaluated later shows the same as if it had never been declared, except where a function from
before was given another variant meanwhile. -/
theorem failed_modules_forgotten (h : Host) (input : Text) (history : List Command)
    (command : Command) :
    Throughout h h.depth (Forgets h) (command.perform h) (after h input history).machine := by
  have htable : Throughout h h.depth
      (fun t m => m.WellFormed ∧ ∀ c s, t = .eval c s → s.isModule = true → m.Hosts c.scope.frame)
      (command.perform h) (after h input history).machine := by
    refine ModuleTable.throughout_perform h input history command fun t m hm ht => ⟨hm.1, ?_⟩
    rintro c s rfl hs
    exact ht hs
  have huniform := Invariant.uniform_perform h command (after h input history).machine
  exact Invariant.throughout_imp huniform
    (Invariant.throughout_and huniform htable (Machine.begins_sealed h input history command))
    fun t m hm => forgets hm.1.1 hm.2 hm.1.2

/-- The body of the first module gives the function of the session a variant that reads a private
member of the module; the second module is declared in its place. -/
def failing : Command :=
  .source "<input>" "mod N \x7b\n let secret = 42\n var f = fn(a, b) => N.secret\n 1 / 0\n\x7d"

def redeclaring : Command := .source "<input>" "mod N \x7b let secret = 7 \x7d"

def calling : Command := .source "<input>" "f(1, 2)"

def plain : Host := hostWith []

/-- Whether the last that the session has shown is this number. -/
def lastShows (n : Number) (shown : List (Except Failure Value × Text)) : Bool :=
  match shown.getLast? with
  | some (.ok (.number k), _) => k == n
  | _ => false

/-- After the module has failed and another has been declared in its place, the function still runs code
of the first body and reads a private member of the second module. -/
theorem failed_module_leaves_variant :
    (∃ e k, failing.perform plain plain.runner
        (after plain "" [.source "<input>" "let f = fn(x) => x"]).machine = .error e k) ∧
      Session.shows (after plain "" [.source "<input>" "let f = fn(x) => x", failing])
          [redeclaring, calling] ≠
        Session.shows (after plain "" [.source "<input>" "let f = fn(x) => x"])
          [redeclaring, calling] := by
  constructor
  · have hfails : failsWith (fun _ => true) (failing.perform plain plain.runner
        (after plain "" [.source "<input>" "let f = fn(x) => x"]).machine) = true := by
      decide +kernel
    obtain ⟨e, k, he, -⟩ := failsWith_eq_true hfails
    exact ⟨_, k, he⟩
  · have hafter : lastShows (.int 7)
        (Session.shows (after plain "" [.source "<input>" "let f = fn(x) => x", failing])
          [redeclaring, calling]) = true := by decide +kernel
    have hwithout : lastShows (.int 7)
        (Session.shows (after plain "" [.source "<input>" "let f = fn(x) => x"])
          [redeclaring, calling]) = false := by decide +kernel
    intro hsame
    rw [hsame, hwithout] at hafter
    cases hafter

end Forgetting

end ModuleScript
