import ModuleScript.Proofs.Imports.Isolated
import ModuleScript.Proofs.Invariant.Together

/-!
# Imports that stop

An import binds the names it asks for one after the other and stops at the first that the file does
not export. The names in front of it stay bound. An import that fails before it has bound a name,
because the file cannot be loaded or does not export the first name, leaves all there was as it was,
unless code of the file has given more variants to functions that were there before.
-/

set_option autoImplicit false

namespace ModuleScript

open Eval Session

/-- The machine on which an import at a place has failed after it had bound the names `bound`. -/
structure Machine.Stopped (m : Machine) (h : Host) (depth : Nat) (c : Context) (l : Location)
    (names : List Ident) (path : Text) (bound : List Ident) (k : Machine) : Prop where
  /-- If a name is bound, the file has been loaded and does not export a name behind it. -/
  exported : bound ≠ [] → ∃ e k₀,
    load h ((run h depth).below h (.node .imports l)) path c.site.source m = .ok e k₀ ∧
    bound = names.takeWhile e.has ∧ bound ≠ names ∧
    ∀ n ∈ bound, ∃ r v, e.get? n = some v ∧ k.lookupIn n c.scope.frame = some r ∧ r.slot = .value v
  kept : m.KeepsNames Slot.Extends c bound k
  untouched : Throughout h depth m.Inward
      (fun self => load h (self.below h (.node .imports l)) path c.site.source) m →
    m.KeepsNames Eq c bound k ∧ (∀ i < m.exports.size, k.exportsOf i = m.exportsOf i) ∧
      (bound = [] → m.Untouched k)

namespace Stopping

open Machine

variable {h : Host} {self : Step} {m k : Machine} {c : Context} {names bound : List Ident}
  {path : Text} {e : Exports} {f : Failure} {n x : Ident} {v : Value} {u : Unit} {isPublic : Bool}

/-! ## The names that are bound -/

theorem lookupIn_define_self (hc : c.scope.frame < m.frames.size)
    (hr : ∀ r, (m.frame c.scope.frame).record = some r → r < m.records.size)
    (hd : define c n v isPublic m = .ok u k) :
    ∃ r, k.lookupIn n c.scope.frame = some r ∧ r.slot = .value v := by
  unfold define at hd
  cases ho : (m.frame c.scope.frame).record with
  | some r =>
    cases hd
    have hmember : ∀ vis, ∃ w, (m.defineMember r n (.value v) vis).lookupIn n c.scope.frame =
        some ⟨.value v, c.scope.frame, some r, w⟩ := fun vis => by
      refine ⟨((m.record r).visibility? n).getD vis, ?_⟩
      have hframe : (m.defineMember r n (.value v) vis).frame c.scope.frame =
        m.frame c.scope.frame := rfl
      unfold lookupIn
      dsimp only
      rw [hframe, ho, Option.bind_some, defineMember, record_setRecord, if_pos ⟨rfl, hr r ho⟩,
        Record.member?_define, if_pos rfl]
      rfl
    simp only [ho]
    obtain ⟨w, hw⟩ := hmember (Visibility.ofBool isPublic)
    exact ⟨_, hw, rfl⟩
  | none =>
    have hslot : (m.setSlot c.scope.frame n (.value v)).lookupIn n c.scope.frame =
        some ⟨.value v, c.scope.frame, none, .isPublic⟩ := by
      simp only [lookupIn, frame_setSlot m hc, if_pos, ho, Option.bind_none, Bindings.get?_set]
      rfl
    cases hd
    simp only [ho]
    split
    · exact ⟨_, hslot, rfl⟩
    · exact ⟨_, hslot, rfl⟩

/-- An imported name is bound to what the file exports under it. -/
theorem lookupIn_bindImports (hc : c.scope.frame < m.frames.size)
    (hr : ∀ r, (m.frame c.scope.frame).record = some r → r < m.records.size)
    (hb : bindImports c path e names m = .ok u k) (hn : n ∈ names) :
    ∃ r v, e.get? n = some v ∧ k.lookupIn n c.scope.frame = some r ∧ r.slot = .value v := by
  induction names generalizing m with
  | nil => cases hn
  | cons x rest ih =>
    obtain ⟨v, m', hx, hd, hrest⟩ := bindImports_cons_eq_ok hb
    obtain ⟨hsize, hrecords, hattached, -⟩ := define_attached hd
    by_cases hmem : n ∈ rest
    · exact ih (hsize ▸ hc) (fun r ho => hrecords ▸ hr r (hattached _ ▸ ho)) hrest hmem
    · obtain rfl := (List.mem_cons.mp hn).resolve_right hmem
      obtain ⟨r, hl, hs⟩ := lookupIn_define_self hc hr hd
      have hkept := (Isolation.keepsNames_bindImports hrest).found _ (hsize ▸ hc) n
        fun hm => absurd hm hmem
      rw [hl] at hkept
      generalize k.lookupIn n c.scope.frame = o at hkept
      cases hkept with
      | some hk => exact ⟨r, v, hx, congrArg some hk.eq, hs⟩

/-- Names are bound up to the first that the file does not export. -/
theorem bindImports_eq_error (hb : bindImports c path e names m = .error f k) :
    names.takeWhile e.has ≠ names ∧ bindImports c path e (names.takeWhile e.has) m = .ok ⟨⟩ k := by
  induction names generalizing m with
  | nil => cases hb
  | cons x rest ih =>
    unfold bindImports at hb
    cases hx : e.get? x with
    | none =>
      have hhas : ¬ e.has x = true := by simp [Bindings.has_eq_isSome, hx]
      rw [List.takeWhile_cons_of_neg hhas]
      rw [hx] at hb
      cases hb
      exact ⟨(List.cons_ne_nil x rest).symm, rfl⟩
    | some v =>
      have hhas : e.has x = true := by rw [Bindings.has_eq_isSome, hx]; rfl
      have hd : define c x v false m = .ok ⟨⟩ (endOf (define c x v false m)) := rfl
      rw [hx] at hb
      dsimp only at hb
      rw [bind_of_ok hd] at hb
      obtain ⟨hne, hrest⟩ := ih hb
      rw [List.takeWhile_cons_of_pos hhas]
      refine ⟨fun heq => hne (List.cons.inj heq).2, ?_⟩
      unfold bindImports
      rw [hx]
      dsimp only
      rw [bind_of_ok hd]
      exact hrest

/-- An import fails while the file is loaded, with no name bound, or at a name that is not exported. -/
theorem imports_eq_error (hi : imports h self c names path m = .error f k) :
    ∃ e bound, bindImports c path e bound (endOf (load h self path c.site.source m)) = .ok ⟨⟩ k ∧
      (bound ≠ [] → ∃ k₀, load h self path c.site.source m = .ok e k₀ ∧
        bound = names.takeWhile e.has ∧ bound ≠ names) := by
  unfold imports at hi
  cases hl : load h self path c.site.source m with
  | error g k₀ =>
    rw [bind_of_error hl] at hi
    cases hi
    exact ⟨[], [], rfl, fun hne => absurd rfl hne⟩
  | ok e k₀ =>
    rw [bind_of_ok hl] at hi
    cases hb : bindImports c path e names k₀ with
    | ok u k₁ =>
      rw [bind_of_ok hb] at hi
      cases hi
    | error g k₁ =>
      rw [bind_of_error hb] at hi
      cases hi
      obtain ⟨hne, hbound⟩ := bindImports_eq_error hb
      exact ⟨e, _, hbound, fun _ => ⟨k₀, rfl, rfl, hne⟩⟩

theorem exports_bindImports (hb : bindImports c path e bound m = .ok u k) :
    k.exports = m.exports := by
  induction bound generalizing m with
  | nil =>
    cases hb
    rfl
  | cons x rest ih =>
    obtain ⟨v, m', -, hd, hrest⟩ := bindImports_cons_eq_ok hb
    rw [ih hrest]
    unfold define at hd
    cases hd
    dsimp only
    split <;> rfl

/-! ## The machine that is left -/

theorem stopped_of_bound {depth : Nat} {l : Location} (hm : m.Ranged)
    (hc : c.scope.frame < m.frames.size)
    (hb : bindImports c path e bound
      (endOf (load h ((run h depth).below h (.node .imports l)) path c.site.source m)) = .ok u k)
    (hbound : bound ≠ [] → ∃ k₀,
      load h ((run h depth).below h (.node .imports l)) path c.site.source m = .ok e k₀ ∧
        bound = names.takeWhile e.has ∧ bound ≠ names) :
    m.Stopped h depth c l names path bound k := by
  have hkept := Isolation.load_keeps h depth (.node .imports l) path c.site.source m
  have hnames := Isolation.keepsNames_bindImports hb
  refine ⟨fun hne => ?_, Isolation.keepsNames_of_keeps hm hc hkept hnames, fun hin => ?_⟩
  · obtain ⟨k₀, hload, htake, hall⟩ := hbound hne
    refine ⟨e, k₀, hload, htake, hall, fun n hn => lookupIn_bindImports ?_ (fun r hr => ?_) hb hn⟩
    · exact Nat.lt_of_lt_of_le hc hkept.frames_size
    · rw [hkept.attached _ hc] at hr
      exact Nat.lt_of_lt_of_le (hm.attached hr) hkept.records_size
  · have hun := Isolation.load_untouched h depth (.node .imports l) path c.site.source m
    rw [show load h ((Conduct.checked h m.Inward depth).below h (.node .imports l)) path
      c.site.source m = _ from hin _] at hun
    refine ⟨Isolation.keepsNames_of_untouched hm hc hun hnames, fun i hi => ?_, ?_⟩
    · rw [Machine.exportsOf, exports_bindImports hb]
      exact hun.exported i hi
    · rintro rfl
      cases hb
      exact hun

end Stopping

/-- If the import fails, it has bound the names in front of the first that the file does not export. -/
def StopsAtMissing (h : Host) (t : Task) (m : Machine) : Prop :=
  ∀ c l names path, t = .eval c (.imports l names path) → ∀ depth f k,
    run h depth t m = .error f k → ∃ bound, m.Stopped h (depth - 1) c l names path bound k

namespace Stopping

open Machine

/-- In every session, when an import fails, the names that the file exports stay bound up to the first
that it does not export. If there is none, all that there was is as it was, but for functions that
code of the file has given more variants. -/
theorem imports_stop (h : Host) (input : Text) (history : List Command) (command : Command) :
    Throughout h h.depth (StopsAtMissing h) (command.perform h) (after h input history).machine := by
  refine Invariant.throughout_imp (Invariant.uniform_perform h command _)
    (begins_ranged h input history command) ?_
  rintro t m ⟨hm, hcontext⟩ c l names path rfl depth f k he
  cases depth with
  | zero =>
    cases he
    refine ⟨[], nofun, ?_, fun _ => ⟨?_, fun _ _ => rfl, fun _ => untouched_refl m⟩⟩
    · exact keepsNames_refl .refl c [] m
    · exact keepsNames_refl (fun _ => rfl) c [] m
  | succ depth =>
    obtain ⟨_, hi⟩ := located_eq_error he
    obtain ⟨e, bound, hb, hbound⟩ := imports_eq_error hi
    exact ⟨bound, stopped_of_bound hm ((hcontext c _ rfl).scope _ (.head _)) hb hbound⟩

/-- The file exports one name. -/
def exportingHost : Host :=
  hostWith [(["lib.rs"], "pub let a = 1\n")]

/-- The import fails because the file does not export `b`, and yet it binds `a`. -/
theorem failed_import_binds :
    (start exportingHost "").machine.lookupIn "a" globalFrame = none ∧
      ∃ e m, (Command.source "<input>" "imp a, b from \"lib.rs\"").perform exportingHost
          exportingHost.runner (start exportingHost "").machine = .error (.report e) m ∧
        e.kind = .importFailure ∧ (m.lookupIn "a" globalFrame).isSome = true := by
  have hbefore : ((start exportingHost "").machine.lookupIn "a" globalFrame).isNone = true := by
    decide +kernel
  have hfails : failsWith (fun e => e.kind == .importFailure)
      ((Command.source "<input>" "imp a, b from \"lib.rs\"").perform exportingHost
        exportingHost.runner (start exportingHost "").machine) = true := by decide +kernel
  have hafter : ((endOf ((Command.source "<input>" "imp a, b from \"lib.rs\"").perform
      exportingHost exportingHost.runner (start exportingHost "").machine)).lookupIn "a"
        globalFrame).isSome = true := by decide +kernel
  obtain ⟨e, m, he, hkind⟩ := failsWith_eq_true hfails
  rw [he] at hafter
  exact ⟨Option.isNone_iff_eq_none.mp hbefore, e, m, he, eq_of_beq hkind, hafter⟩

end Stopping

end ModuleScript
