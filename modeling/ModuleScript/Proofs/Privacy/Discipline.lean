import ModuleScript.Proofs.Names
import ModuleScript.Proofs.Store
import ModuleScript.Proofs.Simulation.Basic

/-!
# Disciplines of access

A discipline says which nodes may run as code of which module, and which private members of a module
its own code never mentions. Machines are alike when they differ in nothing but what such members
hold; a machine is sound when all else that it holds keeps the discipline.
-/

set_option autoImplicit false

namespace ModuleScript

open Eval

structure Discipline where
  /-- A private member, by the path of its module, that may hold anything. -/
  Secret : ModulePath → Ident → Prop
  /-- A node that may run as code of a module, or of none. -/
  Node : Option ModulePath → Stmt → Prop
  part : ∀ {code s t}, Node code s → t ∈ s.parts → Node code t
  part_isModule : ∀ {code s t}, Node code s → t ∈ s.parts → t.isModule = false
  quiet : ∀ {path s n}, Node (some path) s → n ∈ s.mentions → ¬ Secret path n

def Machine.withRecords (m : Machine) (rs : Array Record) : Machine := { m with records := rs }

namespace Discipline

variable (D : Discipline)

/-- Code of this module may bind the name. -/
def Allows (code : Option ModulePath) (n : Ident) : Prop :=
  ∀ path, code = some path → ¬ D.Secret path n

mutual

/-- Declarations at the same place of two programs, which differ at most in the literals that secret
members are bound to. -/
inductive Declares (source : Text) : Option ModulePath → Stmt → Stmt → Prop where
  | node {code : Option ModulePath} {s : Stmt} : s.isModule = false → D.Node code s →
      Declares source code s s
  | secret {path : ModulePath} {l k : Location} {n : Ident} {a b : Constant} : D.Secret path n →
      Declares source (some path) (.expr (.binding l n (.constant k a)))
        (.expr (.binding l n (.constant k b)))
  | module {code : Option ModulePath} {l : Location} {isPublic : Bool} {n : Ident}
      {body body' : List Stmt} : D.Node code (.module l isPublic n body) →
      DeclareAll source (some (.below source code n)) body body' →
      Declares source code (.module l isPublic n body) (.module l isPublic n body')

inductive DeclareAll (source : Text) : Option ModulePath → List Stmt → List Stmt → Prop where
  | nil {code : Option ModulePath} : DeclareAll source code [] []
  | cons {code : Option ModulePath} {s s' : Stmt} {ss ss' : List Stmt} :
      Declares source code s s' → DeclareAll source code ss ss' →
      DeclareAll source code (s :: ss) (s' :: ss')

end

/-- Only equal values correspond, and only values whose functions keep the discipline and whose
modules are those of the machine. -/
def like (m : Machine) : Likeness where
  closure a b := a = b ∧ ∀ v ∈ a.variants, D.Node v.module (.expr v.body)
  module i p j q := i = j ∧ p = q ∧ i < m.records.size ∧ (m.record i).path = p
  closure_name h := by rw [h.1]
  closure_identity h h' := by rw [h.1, h'.1]
  module_text h := by rw [h.2.1]
  module_id h h' := by rw [h.1, h'.1]

abbrev Valid (m : Machine) (v : Value) : Prop := (D.like m).Matches v v

structure Sound (m : Machine) : Prop where
  slots : ∀ {i n v}, (n, Slot.value v) ∈ (m.frame i).bindings → D.Valid m v
  publicMembers : ∀ {i n v}, (n, Slot.value v) ∈ (m.record i).publicMembers → D.Valid m v
  privateMembers : ∀ {i n v}, (n, Slot.value v) ∈ (m.record i).privateMembers →
    ¬ D.Secret (m.record i).path n → D.Valid m v
  exports : ∀ {i n v}, (n, v) ∈ m.exportsOf i → D.Valid m v
  loaded : ∀ {p e n v}, (p, e) ∈ m.loaded → (n, v) ∈ e → D.Valid m v
  attached : ∀ {i r}, (m.frame i).record = some r → r < m.records.size
  unhidden : ∀ {i n s}, (n, s) ∈ (m.record i).publicMembers → ¬ D.Secret (m.record i).path n

structure AlikeRecord (r r' : Record) : Prop where
  path : r.path = r'.path
  parent : r.parent = r'.parent
  publicMembers : r.publicMembers = r'.publicMembers
  privateMembers : Bindings.Related (fun x s t => D.Secret r.path x ∨ s = t) r.privateMembers
    r'.privateMembers

/-- The machines differ in nothing but what secret members hold. -/
structure Alike (m n : Machine) : Prop where
  rest : ∃ rs, n = m.withRecords rs
  size : n.records.size = m.records.size
  record : ∀ i, D.AlikeRecord (m.record i) (n.record i)

/-- Frames and records stay; a frame stays attached to its record and a record keeps its path. -/
structure Grows (m m' : Machine) : Prop where
  frames : m.frames.size ≤ m'.frames.size
  records : m.records.size ≤ m'.records.size
  attached : ∀ i < m.frames.size, (m'.frame i).record = (m.frame i).record
  path : ∀ i < m.records.size, (m'.record i).path = (m.record i).path

/-- A context that runs in a frame of its module. -/
structure Good (m : Machine) (c : Context) : Prop where
  frame : c.scope.frame < m.frames.size
  module : ∀ i, (m.frame c.scope.frame).record = some i →
    i < m.records.size ∧ c.module = some (m.record i).path

theorem grows_refl (m : Machine) : Grows m m :=
  ⟨Nat.le_refl _, Nat.le_refl _, fun _ _ => rfl, fun _ _ => rfl⟩

theorem Grows.trans {a b c : Machine} (hab : Grows a b) (hbc : Grows b c) : Grows a c where
  frames := Nat.le_trans hab.frames hbc.frames
  records := Nat.le_trans hab.records hbc.records
  attached i hi := by
    rw [hbc.attached i (Nat.lt_of_lt_of_le hi hab.frames), hab.attached i hi]
  path i hi := by
    rw [hbc.path i (Nat.lt_of_lt_of_le hi hab.records), hab.path i hi]

theorem Good.later {m m' : Machine} {c : Context} (h : Good m c) (hg : Grows m m') :
    Good m' c := by
  refine ⟨Nat.lt_of_lt_of_le h.frame hg.frames, fun i hi => ?_⟩
  rw [hg.attached _ h.frame] at hi
  obtain ⟨hsize, hmodule⟩ := h.module i hi
  refine ⟨Nat.lt_of_lt_of_le hsize hg.records, ?_⟩
  rw [hmodule, hg.path i hsize]

variable {D} {m m' n n' : Machine} {v v' : Value}

theorem like_eq (h : (D.like m).Matches v v') : v = v' :=
  h.eq (k := D.like m) And.left fun hm => ⟨hm.1, hm.2.1⟩

theorem valid_left (h : (D.like m).Matches v v') : D.Valid m v := by
  have he := like_eq h
  subst he
  exact h

theorem like_module_later (hg : Grows m m') {i j : RecordId} {p q : ModulePath}
    (h : (D.like m).module i p j q) : (D.like m').module i p j q := by
  obtain ⟨hij, hpq, hsize, hpath⟩ := h
  refine ⟨hij, hpq, Nat.lt_of_lt_of_le hsize hg.records, ?_⟩
  rw [hg.path i hsize, hpath]

theorem like_later (hg : Grows m m') (h : (D.like m).Matches v v') : (D.like m').Matches v v' := by
  have hclosure : ∀ {a b}, (D.like m).closure a b → (D.like m').closure a b := fun hc => hc
  have hmodule : ∀ {i p j q}, (D.like m).module i p j q → (D.like m').module i p j q :=
    like_module_later hg
  exact h.mono hclosure hmodule

/-! ## Alike machines -/

theorem alikeRecord_refl (r : Record) : D.AlikeRecord r r :=
  ⟨rfl, rfl, rfl, Bindings.related_refl fun _ _ => .inr rfl⟩

theorem alike_refl (m : Machine) : D.Alike m m :=
  ⟨⟨m.records, rfl⟩, rfl, fun i => alikeRecord_refl (m.record i)⟩

/-- What does not depend on the records is the same on both. -/
theorem Alike.same {α : Type} (h : D.Alike m n) (f : Machine → α)
    (hf : ∀ rs, f (m.withRecords rs) = f m) : f n = f m := by
  obtain ⟨rs, rfl⟩ := h.rest
  exact hf rs

theorem Alike.frame (h : D.Alike m n) (i : FrameId) : n.frame i = m.frame i :=
  h.same (·.frame i) fun _ => rfl

theorem Alike.exportsOf (h : D.Alike m n) (i : ExportsId) : n.exportsOf i = m.exportsOf i :=
  h.same (·.exportsOf i) fun _ => rfl

theorem Alike.act (h : D.Alike m n) (f : Machine → Machine)
    (hf : ∀ m rs, f (m.withRecords rs) = (f m).withRecords rs) : D.Alike (f m) (f n) := by
  obtain ⟨⟨rs, rfl⟩, hsize, hrecord⟩ := h
  have hrecords : (f m).records = m.records := by
    have hm : f m = (f m).withRecords m.records := hf m m.records
    rw [hm]
    rfl
  have hm : ∀ i, (f m).record i = m.record i := by
    intro i
    unfold Machine.record
    rw [hrecords]
  refine ⟨⟨rs, hf m rs⟩, ?_, fun i => ?_⟩
  · rw [hf, hrecords]
    exact hsize
  · rw [hf, hm]
    exact hrecord i

theorem allows_of_node {code : Option ModulePath} {s : Stmt} {x : Ident} (hn : D.Node code s)
    (hx : x ∈ s.mentions) : D.Allows code x :=
  fun _ hp => D.quiet (hp ▸ hn) hx

theorem DeclareAll.forall₂ {source : Text} {code : Option ModulePath} {ss ss' : List Stmt}
    (h : D.DeclareAll source code ss ss') : List.Forall₂ (D.Declares source code) ss ss' := by
  induction ss generalizing ss' with
  | nil =>
    cases h
    exact .nil
  | cons s ss ih =>
    cases h with
    | cons hs hss => exact .cons hs (ih hss)

end Discipline

end ModuleScript
