import ModuleScript.Proofs.Conduct.Runs

/-!
# What a file exports

A file exports the names of the public bindings and of the modules at its top, as far as these have
been evaluated. Whatever is evaluated meanwhile drops none of them: only a module that fails takes
back the name that it exports itself.
-/

set_option autoImplicit false

namespace ModuleScript

open Eval

/-- The name that a statement at the top of a file exports. -/
def Stmt.exported : Stmt → List Ident
  | .publicBinding _ n _ | .module _ _ n _ => [n]
  | _ => []

namespace Machine

variable {m : Machine} {i x : ExportsId} {n k : Ident}

theorem has_setExport (v : Value) (hx : (m.exportsOf x).has k = true) :
    ((m.setExport i n v).exportsOf x).has k = true := by
  unfold exportsOf setExport
  rcases exportsOf_modify m i x (·.set n v) with he | he
  · rwa [he]
  · rw [he, Bindings.has_set, hx, Bool.or_true]

theorem has_setExport_self (v : Value) (hx : x < m.exports.size) :
    ((m.setExport x n v).exportsOf x).has n = true := by
  simp [exportsOf, setExport, hx, Array.getElem_modify, Bindings.has_set]

theorem exportsOf_eraseExport (hx : i ≠ x) : (m.eraseExport i n).exportsOf x = m.exportsOf x := by
  simp [exportsOf, eraseExport, Array.getElem?_modify, hx]

/-- The frame and the table of exports of a source are there, and the names are exported. -/
structure Publishes (x : ExportsId) (g : FrameId) (names : List Ident) (m : Machine) : Prop where
  frame : g < m.frames.size
  table : x < m.exports.size
  outside : (m.frame g).record = none
  has : ∀ n ∈ names, (m.exportsOf x).has n = true

namespace Publishes

variable {g : FrameId} {names : List Ident} {m' : Machine}

theorem change {good : Value → Prop} {here : Place → Prop} (h : m.Publishes x g names)
    (hc : m.Change good here m') (hx : ¬ here (.erasure x)) : m'.Publishes x g names := by
  refine ⟨hc.frames_size ▸ h.frame, hc.exports_size ▸ h.table, hc.attached g ▸ h.outside, ?_⟩
  intro n hn
  cases hc with
  | setExport _ _ => exact has_setExport _ (h.has n hn)
  | @eraseExport i _ hi =>
    have hne : i ≠ x := fun he => hx (he ▸ hi)
    rw [exportsOf_eraseExport hne]
    exact h.has n hn
  | _ => exact h.has n hn

theorem mono {names' : List Ident} (h : m.Publishes x g names) (hn : ∀ n ∈ names', n ∈ names) :
    m.Publishes x g names' :=
  ⟨h.frame, h.table, h.outside, fun n hn' => h.has n (hn n hn')⟩

theorem pushFrame (h : m.Publishes x g names) (f : Frame) : (m.pushFrame f).Publishes x g names := by
  refine ⟨?_, h.table, ?_, h.has⟩
  · rw [Machine.pushFrame, Array.size_push]
    exact Nat.lt_succ_of_lt h.frame
  · rw [frame_pushFrame m f h.frame]
    exact h.outside

theorem pushExports (h : m.Publishes x g names) :
    ({ m with exports := m.exports.push [] } : Machine).Publishes x g names := by
  refine ⟨h.frame, ?_, h.outside, fun n hn => ?_⟩
  · rw [Array.size_push]
    exact Nat.lt_succ_of_lt h.table
  · have hn := h.has n hn
    unfold exportsOf at hn ⊢
    rwa [Array.getElem?_push, if_neg (Nat.ne_of_lt h.table)]

theorem register {c : Context} {n : Ident} {i : RecordId} {p : ModulePath} {isOutermost : Bool}
    (h : m.Publishes x g names) (hr : Eval.register c n m = .ok (i, p, isOutermost) m') :
    m'.Publishes x g names := by
  obtain ⟨-, -, -, rfl⟩ := register_eq_ok hr
  exact ⟨h.frame, h.table, h.outside, h.has⟩

end Publishes

end Machine

/-- Names that are exported stay so: a module is declared in the frame of a source only where its
own table of exports is another one. -/
def exporting (x : ExportsId) (g : FrameId) (names : List Ident) : Conduct where
  World := Unit
  Later _ _ := True
  later_refl _ := trivial
  later_trans _ _ := trivial
  Fits _ := Machine.Publishes x g names
  Good _ _ := True
  Serves _ s := s.exports = x → s.globals = g
  Code _ c s := (c.site.exports = x → c.site.globals = g) ∧
    (c.scope.frame = g → s.isModule = false ∧ Orderly s)
  Here _ p := p ≠ .erasure x
  Varies := True
  good_later _ h := h
  serves_later _ h := h
  code_later _ h := h
  here_later _ h := h
  code_site hc := hc.1
  code_part hc ht := ⟨hc.1, fun hg => ⟨(hc.2 hg).2.part_isModule ht, (hc.2 hg).2.part ht⟩⟩
  holds _ := Machine.holds_of_all (Value.carries_of_all fun _ => trivial) _
  writable _ _ := ⟨fun h => (by cases h), fun _ _ h => (by cases h), fun _ h => (by cases h)⟩
  erasable _ hc hown he := by
    cases he
    cases (hc.2 (hown.trans (hc.1 rfl))).1
  change hm hc := hm.change hc fun h => h rfl
  enter hm hc _ _ := by
    refine ⟨⟨⟩, trivial, hm.pushFrame _, fun t ht => ⟨hc.1, fun hg => ?_⟩⟩
    exact absurd hg (Nat.ne_of_gt hm.frame)
  call hm _ _ hs _ :=
    ⟨⟨⟩, trivial, hm.pushFrame _, hs, fun hg => absurd hg (Nat.ne_of_gt hm.frame)⟩
  lambda hm _ := ⟨⟨⟩, trivial, ⟨hm.frame, hm.table, hm.outside, hm.has⟩, trivial⟩
  vary _ hm _ _ _ _ := ⟨⟨⟩, trivial, ⟨hm.frame, hm.table, hm.outside, hm.has⟩, trivial,
    fun _ _ h => (by cases h), fun _ h => (by cases h), fun _ _ h => (by cases h)⟩
  register hm _ hr :=
    ⟨⟨⟩, trivial, hm.register hr, (fun h => by cases h), fun h => by cases h⟩
  enterModule hm hc _ _ _ _ := by
    refine ⟨⟨⟩, trivial, hm.pushFrame _, .of_code (fun _ => trivial) (fun _ h => h)
      fun t ht => ⟨hc.1, fun hg => ?_⟩⟩
    exact absurd hg (Nat.ne_of_gt hm.frame)

namespace Exporting

variable {h : Host} {m m' : Machine} {s : Stmt} {site : Site} {outer : List FrameId}
  {names : List Ident} {depth : Nat}

theorem files (x : ExportsId) (g : FrameId) (names : List Ident) (h : Host) :
    (exporting x g names).Files h where
  setLoading _ hm := ⟨hm.frame, hm.table, hm.outside, hm.has⟩
  setLoaded _ _ hm _ := ⟨hm.frame, hm.table, hm.outside, hm.has⟩
  openFile hm _ _ _ := by
    have hserves : ∀ m : Machine, m.Publishes x g names → m.exports.size = x → m.frames.size = g :=
      fun m hm he => absurd he (Nat.ne_of_gt hm.table)
    refine ⟨⟨⟩, trivial, (hm.pushFrame _).pushExports, hserves _ hm, fun s _ => ⟨hserves _ hm, ?_⟩⟩
    exact fun hg => absurd hg (Nat.ne_of_gt hm.frame)

/-- The step keeps what has been exported. -/
abbrev Keeps (x : ExportsId) (g : FrameId) (names : List Ident) (self : Step) : Prop :=
  (exporting x g names).actions.Follows self self

theorem keeps_run (x : ExportsId) (g : FrameId) (names : List Ident) (h : Host) (depth : Nat) :
    Keeps x g names (run h depth) :=
  Conduct.run_follows (files x g names h).imports trivial depth

/-- What has been exported stays so, whatever is evaluated at the top of the file. -/
theorem kept {self : Step} (hself : Keeps site.exports site.globals names self)
    (outer : List FrameId) (hm : m.Publishes site.exports site.globals names)
    (hmodule : s.isModule = false) (hs : Orderly s) :
    (endOf (self (.eval (top site outer) s) m)).Publishes site.exports site.globals names := by
  have ht : (exporting site.exports site.globals names).Allows ⟨⟩ (.eval (top site outer) s) :=
    ⟨fun _ => rfl, fun _ => ⟨hmodule, hs⟩⟩
  obtain ⟨_, -, hend⟩ := (Conduct.ends_eq (Conduct.task_agrees hself ht)
    (fun _ _ _ => Value.eq_of_only) hm).2
  exact hend

/-- A public definition at the top of a file exports the name. -/
theorem exports_define (hm : m.Publishes site.exports site.globals names) (n : Ident) (v : Value)
    (hd : define (top site outer) n v true m = .ok ⟨⟩ m') :
    m'.Publishes site.exports site.globals (n :: names) := by
  have hrecord : (m.frame (top site outer).scope.frame).record = none := hm.outside
  unfold define at hd
  cases hd
  dsimp only
  rw [hrecord]
  dsimp only
  rw [if_pos ⟨rfl, rfl⟩]
  have hslot : m.Change (fun _ => True) (· ≠ .erasure site.exports)
      (m.setSlot site.globals n (.value v)) := .setSlot (fun h => by cases h) fun _ _ => trivial
  have hset := hm.change hslot fun h => h rfl
  have hexport : (m.setSlot site.globals n (.value v)).Change (fun _ => True)
      (· ≠ .erasure site.exports)
      ((m.setSlot site.globals n (.value v)).setExport site.exports n v) :=
    .setExport (fun h => by cases h) trivial
  have hexport := hset.change hexport fun h => h rfl
  refine ⟨hexport.frame, hexport.table, hexport.outside, ?_⟩
  exact List.forall_mem_cons.mpr ⟨Machine.has_setExport_self v hset.table, hexport.has⟩

/-- A body that does not run in the frame of the source leaves alone what is exported. -/
theorem kept_stmts {self : Step} {x : ExportsId} {g : FrameId} (hself : Keeps x g names self)
    {c : Context} (body : List Stmt) (hm : m.Publishes x g names)
    (hsite : c.site.exports = x → c.site.globals = g) (hc : c.scope.frame ≠ g) :
    (endOf (self.stmts c body m)).Publishes x g names := by
  have hcode : ∀ s ∈ body, (exporting x g names).actions.Code ⟨⟩ c c s :=
    fun s _ => ⟨rfl, hsite, fun hg => absurd hg hc⟩
  obtain ⟨_, -, hend⟩ := (Conduct.ends_eq (Actions.stmts_agree hself hcode)
    (fun _ _ _ => Value.eq_of_only) hm).2
  exact hend

theorem kept_declareMembers {i : RecordId} {body : List Stmt} {x : ExportsId} {g : FrameId}
    (hm : m.Publishes x g names) (hd : declareMembers i body m = .ok ⟨⟩ m') :
    m'.Publishes x g names := by
  have hkeeps : (exporting x g names).Keeps ⟨⟩ (fun _ _ => True) (declareMembers i body) :=
    Conduct.keeps_declareMembers (C := exporting x g names) (fun h => by cases h) body
  rcases hkeeps m hm with ⟨_, k, _, he, -, hk, -⟩ | ⟨e, k, _, he, -⟩
  · rw [hd] at he
    cases he
    exact hk
  · rw [hd] at he
    cases he

theorem publicBinding {l : Location} {n : Ident} {e : Expr}
    (hm : m.Publishes site.exports site.globals names) (hs : Orderly (.publicBinding l n e))
    {v : Value} (hr : run h depth (.eval (top site outer) (.publicBinding l n e)) m = .ok v m') :
    m'.Publishes site.exports site.globals (n :: names) := by
  cases depth with
  | zero => cases hr
  | succ depth =>
    obtain ⟨u, k, hu, hk⟩ := bind_eq_ok (located_eq_ok hr)
    obtain ⟨_, k', hd, hend⟩ := bind_eq_ok hk
    have hpart : Stmt.expr e ∈ (Stmt.publicBinding l n e).parts := .head _
    have hkept := kept ((keeps_run _ _ _ h depth).below h (.node .binding l)) outer hm
      (hs.part_isModule hpart) (hs.part hpart)
    have hu : (run h depth).below h (.node .binding l) (.eval (top site outer) (.expr e)) m =
        .ok u k := hu
    rw [hu] at hkept
    cases hend
    exact exports_define hkept n _ hd

theorem module {l : Location} {isPublic : Bool} {n : Ident} {body : List Stmt}
    (hm : m.Publishes site.exports site.globals names) {v : Value}
    (hr : run h depth (.eval (top site outer) (.module l isPublic n body)) m = .ok v m') :
    m'.Publishes site.exports site.globals (n :: names) := by
  cases depth with
  | zero => cases hr
  | succ depth =>
    obtain ⟨o, m₁, ho, hbody⟩ := bind_eq_ok (located_eq_ok hr)
    obtain ⟨⟨i, p, isOutermost⟩, k, hreg, hk⟩ := bind_eq_ok ho
    have hk : (define (top site outer) n (.module i p) (isPublic || isOutermost) >>= fun _ =>
        (top site outer).enter { name := "mod " ++ p.text, record := some i } >>= fun inner =>
        pure ⟨i, p, previous (top site outer) n k, { inner with module := some p }⟩) k =
        .ok o m₁ := hk
    have hout : isOutermost = true := by
      rw [Machine.register_isOutermost hreg, show (m.frame (top site outer).scope.frame).record =
        none from hm.outside]
      rfl
    obtain ⟨_, m₂, hd, hrest⟩ := bind_eq_ok hk
    rw [hout, Bool.or_true] at hd
    have hm₂ : m₂.Publishes site.exports site.globals (n :: names) :=
      exports_define (hm.register hreg) n _ hd
    obtain ⟨c, m₃, hc, hpure⟩ := bind_eq_ok hrest
    cases hc
    cases hpure
    -- the body runs in a frame of its own, so nothing in it drops a name that the file exports
    obtain ⟨_, m₄, hmembers, hstmts⟩ := bind_eq_ok (mending_eq_ok hbody)
    have hm₄ := kept_declareMembers (hm₂.pushFrame _) hmembers
    obtain ⟨u, m₅, hu, hend⟩ := bind_eq_ok hstmts
    have hm₅ := kept_stmts ((keeps_run _ _ _ h depth).below h (.node .module l)) body
      (c := ⟨site, (top site outer).scope.push m₂.frames.size, some p⟩) hm₄ (fun _ => rfl)
      (Nat.ne_of_gt hm₂.frame)
    have hu : ((run h depth).below h (.node .module l)).stmts
        ⟨site, (top site outer).scope.push m₂.frames.size, some p⟩ body m₄ = .ok u m₅ := hu
    rw [hu] at hm₅
    cases hend
    exact hm₅

/-- After a statement at the top of a file its name is exported too. -/
theorem stmt (hm : m.Publishes site.exports site.globals names) (hs : Orderly s) {v : Value}
    (hr : run h depth (.eval (top site outer) s) m = .ok v m') :
    m'.Publishes site.exports site.globals (s.exported ++ names) := by
  have hkept : s.isModule = false → m'.Publishes site.exports site.globals names := by
    intro hmodule
    have hend := kept (keeps_run _ _ _ h depth) outer hm hmodule hs
    rwa [hr] at hend
  cases s with
  | publicBinding l n e => exact publicBinding hm hs hr
  | module l isPublic n body => exact module hm hr
  | expr e => exact hkept rfl
  | variation l n l' params body => exact hkept rfl
  | imports l ns path => exact hkept rfl

end Exporting

end ModuleScript
