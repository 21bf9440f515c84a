import ModuleScript.Proofs.Afresh.Sequels
import ModuleScript.Proofs.Names

/-!
# Function members in any order

The members of a body are declared before its first statement runs, and to make a function does not
run its body. So where all the members of a module are functions, their order decides only how the
functions are numbered and in which order the members are listed, and nothing shows that.
-/

set_option autoImplicit false

namespace ModuleScript

open Eval Session

/-- A member that is given a function. -/
structure FunctionMember where
  name : Ident
  visibility : Visibility
  label : Option Ident
  params : List Ident
  body : Expr

/-- The member that a `let` or a `pub let` gives a function. -/
def Stmt.functionMember? : Stmt → Option FunctionMember
  | .expr (.binding _ n (.lambda _ label ps body)) => some ⟨n, .isPrivate, label, ps, body⟩
  | .publicBinding _ n (.lambda _ label ps body) => some ⟨n, .isPublic, label, ps, body⟩
  | _ => none

/-- A body that gives members of different names functions and does nothing else. -/
structure FunctionBody (body : List Stmt) : Prop where
  functions : ∀ s ∈ body, ∃ f, s.functionMember? = some f
  distinct : ((body.filterMap Stmt.functionMember?).map FunctionMember.name).Nodup

/-! ## Records with two more members -/

namespace Record

variable {x y : Ident} {v w : Visibility} {s t : Slot}

theorem setMember_comm (h : x ≠ y) (r : Record) (vis : Visibility) (z : Ident) :
    (((r.setMember v x s).setMember w y t).members vis).get? z =
      (((r.setMember w y t).setMember v x s).members vis).get? z := by
  simp only [get?_setMember]
  by_cases hx : x = z
  · have hy : y ≠ z := fun hy => h (hx.trans hy.symm)
    simp [hy]
  · simp [hx]

/-- Members of different names may be defined in either order. -/
theorem define_comm (h : x ≠ y) (r : Record) (vis : Visibility) (z : Ident) :
    (((r.define x s v).define y t w).members vis).get? z =
      (((r.define y t w).define x s v).members vis).get? z := by
  have hy := visibility?_define r x y s v
  have hx := visibility?_define r y x t w
  rw [if_neg h] at hy
  rw [if_neg (Ne.symm h)] at hx
  rw [define, hy, define.eq_1 (r.define y t w), hx]
  exact setMember_comm h r vis z

theorem path_define (r : Record) (x : Ident) (s : Slot) (v : Visibility) :
    (r.define x s v).path = r.path :=
  path_setMember _ _ _ _

/-- A name that is new is declared as it is defined. -/
theorem declare_of_none {r : Record} (h : r.visibility? x = none) (v : Visibility) :
    r.declare x v = .ok (r.define x .pending v) := by
  rw [declare, define, h]
  rfl

theorem Gapped.define_comm {g : Gaps} {r : Record} {s' t' : Slot} (hr : r.Gapped g r) (h : x ≠ y)
    (hs : g.like.Slots s s') (ht : g.like.Slots t t') :
    ((r.define x s v).define y t w).Gapped g ((r.define y t' w).define x s' v) := by
  have hboth := (hr.define x hs v).define y ht w
  refine ⟨?_, fun vis z => ?_⟩
  · simp only [path_define]
  · rw [← Record.define_comm h]
    exact hboth.members vis z

end Record

theorem Machine.setRecord_setRecord (m : Machine) (i : RecordId) (r r' : Record) :
    (m.setRecord i r).setRecord i r' = m.setRecord i r' := by
  unfold setRecord
  congr 1
  refine Array.ext (by simp) fun j hj hj' => ?_
  simp only [Array.getElem_modify]
  split <;> rfl

theorem Machine.defineMember_defineMember {m : Machine} {i : RecordId} (hi : i < m.records.size)
    (x y : Ident) (s t : Slot) (v w : Visibility) :
    (m.defineMember i x s v).defineMember i y t w =
      m.setRecord i (((m.record i).define x s v).define y t w) := by
  unfold defineMember
  rw [record_setRecord, if_pos ⟨rfl, hi⟩, setRecord_setRecord]

theorem Gaps.Level.defineMember_comm {g : Gaps} (hg : g.Level) {m : Machine} (hm : m.Gapped g m)
    {i : RecordId} (hi : i < m.records.size) {x y : Ident} (h : x ≠ y) {s s' t t' : Slot}
    (hs : g.like.Slots s s') (ht : g.like.Slots t t') (v w : Visibility) :
    ((m.defineMember i x s v).defineMember i y t w).Gapped g
      ((m.defineMember i y t' w).defineMember i x s' v) := by
  have hrecord := hm.record i
  rw [hg.records] at hrecord
  have hset := hm.setRecord i (hrecord.define_comm (v := v) (w := w) h hs ht)
  rw [hg.records] at hset
  rwa [Machine.defineMember_defineMember hi, Machine.defineMember_defineMember hi]

/-! ## Steps in any order -/

/-- Steps of which any two that come first may be exchanged may be taken in any order, with results that
are related, if one thing is related to what is related to a third. -/
theorem Eval.related_of_perm {ι : Type} {R : Outcome → Outcome → Prop} (hrefl : ∀ r, R r r)
    (htrans : ∀ {r s t}, R r s → R s t → R r t) {P : List ι → Machine → Prop} {f : ι → Eval PUnit}
    {x : Eval Value} (hperm : ∀ {l l' m}, l.Perm l' → P l m → P l' m)
    (hstep : ∀ {a l m}, P (a :: l) m →
      (∃ m', f a m = .ok ⟨⟩ m' ∧ P l m') ∨ ∃ e m', f a m = .error e m')
    (hswap : ∀ {a b l m}, P (b :: a :: l) m → R (((b :: a :: l).forM f >>= fun _ => x) m)
      (((a :: b :: l).forM f >>= fun _ => x) m))
    {l l' : List ι} (h : l.Perm l') : ∀ {m}, P l m →
      R ((l.forM f >>= fun _ => x) m) ((l'.forM f >>= fun _ => x) m) := by
  induction h with
  | nil => exact fun _ => hrefl _
  | @cons a l l' _ ih =>
    intro m hm
    have hcons : ∀ ss : List ι, ((a :: ss).forM f >>= fun _ => x) =
        f a >>= fun _ => ss.forM f >>= fun _ => x := fun ss => by simp [List.forM_cons]
    rw [hcons, hcons]
    rcases hstep hm with ⟨m', he, hm'⟩ | ⟨e, m', he⟩
    · rw [bind_of_ok he, bind_of_ok he]
      exact ih hm'
    · rw [bind_of_error he, bind_of_error he]
      exact hrefl _
  | swap a b l => exact hswap
  | trans h₁ _ ih₁ ih₂ => exact fun hm => htrans (ih₁ hm) (ih₂ (hperm h₁ hm))

theorem Eval.forM_two {ι : Type} {f : ι → Eval PUnit} {a b : ι} {m m' m'' : Machine}
    (ha : f a m = .ok ⟨⟩ m') (hb : f b m' = .ok ⟨⟩ m'') (l : List ι) (x : Eval Value) :
    ((a :: b :: l).forM f >>= fun _ => x) m = (l.forM f >>= fun _ => x) m'' := by
  have hboth : (a :: b :: l).forM f m = l.forM f m'' := (bind_of_ok ha).trans (bind_of_ok hb)
  change EStateM.bind _ _ m = EStateM.bind _ _ m''
  unfold EStateM.bind
  rw [hboth]

/-! ## Where the statements of a body run -/

theorem Eval.define_of_record {c : Context} {m : Machine} {i : RecordId}
    (h : (m.frame c.scope.frame).record = some i) (x : Ident) (v : Value) (isPublic : Bool) :
    define c x v isPublic m = .ok ⟨⟩ (m.defineMember i x (.value v) (.ofBool isPublic)) := by
  unfold define
  change EStateM.Result.ok _ _ = _
  dsimp only
  rw [h]

/-- The statements of a body run in the context and the frame there belongs to the module; functions
that are made are numbered from `low` on. -/
structure Machine.Houses (m : Machine) (low : Nat) (d : Context) (i : RecordId) : Prop where
  ranged : m.Ranged
  context : m.extent.HasContext d
  attached : (m.frame d.scope.frame).record = some i
  low : low ≤ m.functions

namespace Machine.Houses

variable {m : Machine} {low : Nat} {d : Context} {i : RecordId}

theorem lt_size (hm : m.Houses low d i) : i < m.records.size := hm.ranged.attached hm.attached

theorem defineMember (hm : m.Houses low d i) (x : Ident) {s : Slot}
    (hs : ∀ v, s = .value v → v.Carries m.extent.HasClosure) (v : Visibility) :
    (m.defineMember i x s v).Houses low d i := by
  have hchange : m.Change (Value.Carries m.extent.HasClosure) (fun _ => True)
      (m.defineMember i x s v) := .setMember trivial hs
  obtain ⟨hranged, hextent⟩ := hm.ranged.change hchange
  exact ⟨hranged, hextent ▸ hm.context, hm.attached, hm.low⟩

theorem newFunction (hm : m.Houses low d i) :
    ({ m with functions := m.functions + 1 } : Machine).Houses low d i := by
  obtain ⟨hranged, hl⟩ := hm.ranged.newFunction
  exact ⟨hranged, hm.context.later hl, hm.attached, Nat.le_succ_of_le hm.low⟩

end Machine.Houses

/-- The levels between nodes of these kinds wherever they stand, if one is a module or a binding. -/
def Host.gap (h : Host) (kind kind' : Construct) : Nat :=
  h.platform.between (.node kind ⟨[], 0, 0⟩) (.node kind' ⟨[], 0, 0⟩)

namespace FunctionMember

/-- The levels that it takes to give a member its function. -/
def levels (h : Host) : Nat := h.gap .binding .lambda + 2

/-- The function with this number, made in this context. -/
def closure (f : FunctionMember) (d : Context) (id : Nat) : Closure :=
  ⟨id, f.label, [variantHere d f.params f.body]⟩

/-- Makes the function and gives it to the member of the module. -/
def install (f : FunctionMember) (d : Context) (i : RecordId) (m : Machine) : Machine :=
  ({ m with functions := m.functions + 1 } : Machine).defineMember i f.name
    (.value (.closure (f.closure d m.functions))) f.visibility

variable {f f' : FunctionMember} {s : Stmt} {h : Host} {m : Machine} {low depth : Nat} {d : Context}
  {i : RecordId}

theorem declared?_eq (hs : s.functionMember? = some f) : declared? s = some (f.name, f.visibility) := by
  unfold Stmt.functionMember? at hs
  split at hs <;> cases hs <;> rfl

/-- The initializer of a member is evaluated with the levels that the binding leaves. -/
theorem initializer_eq (h : Host) (depth : Nat) (d : Context) (a l : Location) (f : FunctionMember) :
    ((run h depth).below h (.node .binding a)).expr d (.lambda l f.label f.params f.body) =
      run h (depth - h.gap .binding .lambda)
        (.eval d (.expr (.lambda l f.label f.params f.body))) := by
  rw [Host.gap, h.platform.uniform _ (.inr rfl) _ _ a _ l]
  exact below_run h depth (.node .binding a) (.eval d (.expr (.lambda l f.label f.params f.body)))

/-- A member is not given its function unless there are levels for the binding and for the function. -/
theorem run_of_shallow (hs : s.functionMember? = some f) (hd : depth < levels h) :
    run h depth (.eval d s) m = .error .tooDeep m := by
  cases depth with
  | zero => rfl
  | succ depth =>
    have hnone : depth - h.gap .binding .lambda = 0 := by
      unfold levels at hd
      omega
    have hbound : ∀ a l isPublic,
        (do
          let v ← ((run h depth).below h (.node .binding a)).expr d (.lambda l f.label f.params f.body)
          define d f.name v isPublic
          return v : Eval Value) m = .error .tooDeep m := by
      intro a l isPublic
      rw [initializer_eq, hnone]
      rfl
    unfold Stmt.functionMember? at hs
    split at hs
    · rename_i l _ _ _ _ _
      cases hs
      exact located_of_error h l (hbound l _ false)
    · rename_i l _ _ _ _ _
      cases hs
      exact located_of_error h l (hbound l _ true)
    · cases hs

theorem run_eq (hs : s.functionMember? = some f) (hm : m.Houses low d i) :
    run h (depth + levels h) (.eval d s) m =
      .ok (.closure (f.closure d m.functions)) (f.install d i m) := by
  have hleft : depth + (h.gap .binding .lambda + 1) - h.gap .binding .lambda = depth + 1 := by omega
  have hbound : ∀ a l isPublic,
      (do
        let v ← ((run h (depth + (h.gap .binding .lambda + 1))).below h (.node .binding a)).expr d
          (.lambda l f.label f.params f.body)
        define d f.name v isPublic
        return v : Eval Value) m =
      .ok (.closure (f.closure d m.functions)) (({ m with functions := m.functions + 1 } :
        Machine).defineMember i f.name (.value (.closure (f.closure d m.functions)))
          (.ofBool isPublic)) := by
    intro a l isPublic
    have hlambda : run h (depth + 1) (.eval d (.expr (.lambda l f.label f.params f.body))) m =
        .ok (.closure (f.closure d m.functions)) { m with functions := m.functions + 1 } :=
      located_of_ok h l rfl
    rw [initializer_eq, hleft, bind_of_ok hlambda,
      bind_of_ok (define_of_record hm.newFunction.attached f.name _ isPublic)]
    rfl
  unfold Stmt.functionMember? at hs
  split at hs
  · rename_i l _ _ _ _ _
    cases hs
    exact located_of_ok h l (hbound l _ false)
  · rename_i l _ _ _ _ _
    cases hs
    exact located_of_ok h l (hbound l _ true)
  · cases hs

theorem houses_install (hm : m.Houses low d i) (f : FunctionMember) :
    (f.install d i m).Houses low d i := by
  refine hm.newFunction.defineMember f.name ?_ f.visibility
  rintro _ ⟨⟩
  refine Value.carries_closure.mpr ⟨Nat.lt_succ_self m.functions, fun v hv => ?_⟩
  cases List.mem_singleton.mp hv
  exact hm.context.scope

/-- Two functions for different members are made in either order. -/
theorem install_comm (hm : m.Houses low d i) (hne : f.name ≠ f'.name) :
    ∃ g : Gaps, g.Level ∧ g.Fixes m ∧
      (f'.install d i (f.install d i m)).Gapped g (f.install d i (f'.install d i m)) := by
  have hordered : ∀ j, m.functions + 2 ≤ j → Equiv.swap m.functions (m.functions + 1) j = j :=
    fun j hj => Equiv.swap_apply_of_ne_of_ne (by omega) (by omega)
  have hlevel := Gaps.level_reordered hordered
  have hfixes : (Gaps.reordered _ _ hordered).Fixes m :=
    fun j hj => Equiv.swap_apply_of_ne_of_ne (Nat.ne_of_lt hj) (by omega)
  refine ⟨_, hlevel, hfixes, ?_⟩
  have hself := Gaps.gapped_reordered hm.ranged hfixes (Nat.le_refl (m.functions + 2))
  have hclosure : ∀ (e : FunctionMember) {j k : Nat}, Equiv.swap m.functions (m.functions + 1) k = j →
      (Gaps.reordered _ _ hordered).like.Slots (.value (.closure (e.closure d j)))
        (.value (.closure (e.closure d k))) := by
    rintro e _ k rfl
    exact .value (.closure (hlevel.closure (e.closure d k)).symm)
  exact hlevel.defineMember_comm hself hm.lt_size hne (hclosure f (Equiv.swap_apply_right _ _))
    (hclosure f' (Equiv.swap_apply_left _ _)) f.visibility f'.visibility

end FunctionMember

/-! ## The two phases -/

namespace FunctionBody

variable {body body' : List Stmt} {s : Stmt}

theorem perm (hp : body.Perm body') (h : FunctionBody body) : FunctionBody body' where
  functions s hs := h.functions s (hp.mem_iff.mpr hs)
  distinct := ((hp.filterMap _).map _).nodup_iff.mp h.distinct

/-- The first statement gives a member a function, and the others other members. -/
theorem head (h : FunctionBody (s :: body)) :
    ∃ f, s.functionMember? = some f ∧ FunctionBody body ∧
      f.name ∉ (body.filterMap Stmt.functionMember?).map FunctionMember.name := by
  obtain ⟨f, hf⟩ := h.functions s (.head _)
  have hdistinct := h.distinct
  rw [List.filterMap_cons_some hf, List.map_cons, List.nodup_cons] at hdistinct
  exact ⟨f, hf, ⟨fun t ht => h.functions t (.tail _ ht), hdistinct.2⟩, hdistinct.1⟩

/-- The statements of a module that give members functions have the same levels at their disposal. -/
theorem stmts_below (h : FunctionBody body) (host : Host) (depth : Nat) (l : Location) (d : Context) :
    ((run host depth).below host (.node .module l)).stmts d body =
      (run host (depth - host.gap .module .binding)).stmts d body := by
  refine stmts_congr fun s hs => ?_
  obtain ⟨f, hf⟩ := h.functions s hs
  have hkind : s.construct = .binding := by
    unfold Stmt.functionMember? at hf
    split at hf <;> cases hf <;> rfl
  rw [below_run, Task.work, hkind, host.platform.uniform _ (.inl rfl), Host.gap]

/-- The members that are declared are those that are given functions. -/
theorem declared (h : FunctionBody body) :
    (body.filterMap declared?).map Prod.fst =
      (body.filterMap Stmt.functionMember?).map FunctionMember.name := by
  induction body with
  | nil => rfl
  | cons s rest ih =>
    obtain ⟨f, hf, hrest, -⟩ := h.head
    rw [List.filterMap_cons_some hf, List.filterMap_cons_some (FunctionMember.declared?_eq hf),
      List.map_cons, List.map_cons, ih hrest]

end FunctionBody

namespace Reordering

variable {h : Host} {m₁ m : Machine} {c d : Context} {i : RecordId} {n : Ident} {old : Previous}
  {p : ModulePath} {x : Eval Value}

/-- The name means again what it meant before if a declaration fails. -/
def mended (c : Context) (n : Ident) (old : Previous) (p : ModulePath) : Outcome → Outcome
  | .error e m => .error e (restore c n old (m.removeModule p))
  | r => r

theorem mending_eq (x : Eval Value) (m : Machine) :
    mending x (fun m => restore c n old (m.removeModule p)) m = mended c n old p (x m) := by
  unfold mending
  cases x m <;> rfl

/-- What is done alike on machines that differ in their order at most ends alike. -/
theorem indistinct_mended {g : Gaps} (hg : g.Level) (hfixes : g.Fixes m₁)
    (hold : Sequel.Within m₁ (.dropped c n old p)) (hx : g.worlds.Agree ⟨⟩ g.Values x x)
    {k k' : Machine} (hk : k.Gapped g k') :
    Indistinct h m₁ (mended c n old p (x k)) (mended c n old p (x k')) := by
  have hmended := hx.mending fun w _ _ _ hm => ⟨w, trivial, hg.dropped hfixes hold hm⟩
  rw [← mending_eq, ← mending_eq]
  exact hg.indistinct hfixes (hmended k k' hk)

theorem fixes_of_le {g : Gaps} (hl : m₁.functions ≤ m.functions) (hg : g.Fixes m) : g.Fixes m₁ :=
  fun j hj => hg j (Nat.lt_of_lt_of_le hj hl)

/-! ### The members are declared -/

/-- New members of different names are to be declared. -/
structure Declaring (m₁ : Machine) (d : Context) (i : RecordId) (names : List (Ident × Visibility))
    (m : Machine) : Prop where
  houses : m.Houses m₁.functions d i
  distinct : (names.map Prod.fst).Nodup
  fresh : ∀ q ∈ names, (m.record i).visibility? q.1 = none

theorem Declaring.step {q : Ident × Visibility} {names : List (Ident × Visibility)}
    (hm : Declaring m₁ d i (q :: names) m) :
    Gaps.declareName i q m = .ok ⟨⟩ (m.defineMember i q.1 .pending q.2) ∧
      Declaring m₁ d i names (m.defineMember i q.1 .pending q.2) := by
  obtain ⟨hhouses, hdistinct, hfresh⟩ := hm
  obtain ⟨hq, hdistinct⟩ := List.nodup_cons.mp hdistinct
  obtain ⟨hnone, hfresh⟩ := List.forall_mem_cons.mp hfresh
  refine ⟨change_of_ok ?_, hhouses.defineMember _ (fun _ hv => by cases hv) _, hdistinct,
    fun q' hq' => ?_⟩
  · rw [Record.declare_of_none hnone]
    rfl
  · have hne : q.1 ≠ q'.1 := fun he => hq (he ▸ List.mem_map_of_mem hq')
    rw [Machine.defineMember, Machine.record_setRecord, if_pos ⟨rfl, hhouses.lt_size⟩,
      Record.visibility?_define, if_neg hne]
    exact hfresh q' hq'

theorem Declaring.run {names : List (Ident × Visibility)} (hm : Declaring m₁ d i names m) :
    ∃ m', Gaps.declareNames i names m = .ok ⟨⟩ m' ∧ m'.Houses m₁.functions d i := by
  induction names generalizing m with
  | nil => exact ⟨m, rfl, hm.houses⟩
  | cons q names ih =>
    obtain ⟨hq, hm'⟩ := hm.step
    obtain ⟨m', hrest, hhouses⟩ := ih hm'
    exact ⟨m', (bind_of_ok hq).trans hrest, hhouses⟩

theorem Declaring.perm {names names' : List (Ident × Visibility)} (hp : names.Perm names')
    (hm : Declaring m₁ d i names m) : Declaring m₁ d i names' m :=
  ⟨hm.houses, (hp.map _).nodup_iff.mp hm.distinct, fun q hq => hm.fresh q (hp.mem_iff.mpr hq)⟩

/-- Two members are declared in either order. -/
theorem Declaring.comm {q q' : Ident × Visibility} {names : List (Ident × Visibility)}
    (hm : Declaring m₁ d i (q :: q' :: names) m) :
    ∃ g : Gaps, g.Level ∧ g.Fixes m ∧
      ((m.defineMember i q.1 .pending q.2).defineMember i q'.1 .pending q'.2).Gapped g
        ((m.defineMember i q'.1 .pending q'.2).defineMember i q.1 .pending q.2) := by
  have hordered : ∀ j, m.functions ≤ j → Equiv.refl Nat j = j := fun _ _ => rfl
  have hlevel := Gaps.level_reordered hordered
  have hfixes : (Gaps.reordered _ _ hordered).Fixes m := fun _ _ => rfl
  have hne : q.1 ≠ q'.1 := by
    have hhead := (List.nodup_cons.mp hm.distinct).1
    exact fun he => hhead (he ▸ .head _)
  have hself := Gaps.gapped_reordered hm.houses.ranged hfixes (Nat.le_refl m.functions)
  exact ⟨_, hlevel, hfixes,
    hlevel.defineMember_comm hself hm.houses.lt_size hne .pending .pending q.2 q'.2⟩

/-- In whatever order members are declared, what follows cannot be told apart. -/
theorem names_reordered {names names' : List (Ident × Visibility)} (hp : names.Perm names')
    (hm : Declaring m₁ d i names m) (hold : Sequel.Within m₁ (.dropped c n old p))
    (hx : ∀ g : Gaps, g.Level → g.worlds.Agree ⟨⟩ g.Values x x) :
    Indistinct h m₁ (mended c n old p ((Gaps.declareNames i names >>= fun _ => x) m))
      (mended c n old p ((Gaps.declareNames i names' >>= fun _ => x) m)) := by
  refine related_of_perm (R := fun r s => Indistinct h m₁ (mended c n old p r) (mended c n old p s))
    (P := Declaring m₁ d i) (f := Gaps.declareName i) (fun _ => .refl _ _ _) .trans .perm
    (fun hk => .inl ⟨_, hk.step⟩) ?_ hp hm
  intro q q' l k hk
  have hk' := hk.perm (.swap q q' l)
  obtain ⟨g, hlevel, hfixes, hgapped⟩ := hk.comm
  have hrest : g.worlds.Agree ⟨⟩ g.Values (Gaps.declareNames i l >>= fun _ => x)
      (Gaps.declareNames i l >>= fun _ => x) := by
    have hnames := Gaps.declareNames_agrees (g := g) (w := ⟨⟩) i l
    rw [hlevel.records] at hnames
    exact hnames.bind fun _ _ _ _ _ => hx g hlevel
  rw [forM_two hk.step.1 hk.step.2.step.1, forM_two hk'.step.1 hk'.step.2.step.1]
  exact indistinct_mended hlevel (fixes_of_le hk.houses.low hfixes) hold hrest hgapped

/-! ### The members are given functions -/

/-- Functions are to be made for members of different names. -/
structure Installing (m₁ : Machine) (d : Context) (i : RecordId) (body : List Stmt) (m : Machine) :
    Prop where
  houses : m.Houses m₁.functions d i
  body : FunctionBody body

variable {depth : Nat} {s s' : Stmt} {body body' : List Stmt}

theorem Installing.perm (hp : body.Perm body') (hm : Installing m₁ d i body m) :
    Installing m₁ d i body' m :=
  ⟨hm.houses, hm.body.perm hp⟩

/-- Evaluates a statement and goes on whatever its value. -/
abbrev evaluate (h : Host) (depth : Nat) (d : Context) (s : Stmt) : Eval PUnit := do
  let _ ← run h depth (.eval d s)
  return ⟨⟩

theorem stmts_eq (self : Step) (d : Context) (body : List Stmt) (x : Eval Value) :
    (self.stmts d body >>= fun _ => x) =
      (body.forM fun s => do
        let _ ← self (.eval d s)
        return ⟨⟩) >>= fun _ => x := by
  unfold Step.stmts
  generalize Value.unit = v
  induction body generalizing v with
  | nil => rfl
  | cons s rest ih => simp [List.foldlM_cons, List.forM_cons, ih]

theorem Installing.head (hm : Installing m₁ d i (s :: body) m) :
    ∃ f, s.functionMember? = some f ∧ Installing m₁ d i body (f.install d i m) ∧
      f.name ∉ (body.filterMap Stmt.functionMember?).map FunctionMember.name := by
  obtain ⟨f, hf, hrest, hname⟩ := hm.body.head
  exact ⟨f, hf, ⟨FunctionMember.houses_install hm.houses f, hrest⟩, hname⟩

theorem evaluate_of_shallow {f : FunctionMember} (hf : s.functionMember? = some f)
    (hd : depth < FunctionMember.levels h) (m : Machine) : evaluate h depth d s m = .error .tooDeep m :=
  bind_of_error (FunctionMember.run_of_shallow hf hd)

theorem evaluate_eq {f : FunctionMember} (hf : s.functionMember? = some f)
    (hd : ¬ depth < FunctionMember.levels h) (hm : m.Houses m₁.functions d i) :
    evaluate h depth d s m = .ok ⟨⟩ (f.install d i m) := by
  obtain ⟨depth, rfl⟩ := Nat.exists_eq_add_of_le' (Nat.le_of_not_lt hd)
  exact bind_of_ok (FunctionMember.run_eq hf hm)

/-- In whatever order members are given functions, what follows cannot be told apart. -/
theorem stmts_reordered (hp : body.Perm body') (hm : Installing m₁ d i body m)
    (hold : Sequel.Within m₁ (.dropped c n old p)) (depth : Nat) {v : Value}
    (hv : ∀ g : Gaps, g.Level → g.like.Matches v v) :
    Indistinct h m₁ (mended c n old p (((run h depth).stmts d body >>= fun _ => pure v) m))
      (mended c n old p (((run h depth).stmts d body' >>= fun _ => pure v) m)) := by
  rw [stmts_eq, stmts_eq]
  refine related_of_perm (R := fun r s => Indistinct h m₁ (mended c n old p r) (mended c n old p s))
    (P := Installing m₁ d i) (f := evaluate h depth d) (fun _ => .refl _ _ _) .trans .perm ?_ ?_ hp hm
  · intro s l k hk
    obtain ⟨f, hf, hnext, -⟩ := hk.head
    by_cases hd : depth < FunctionMember.levels h
    · exact .inr ⟨_, _, evaluate_of_shallow hf hd k⟩
    · exact .inl ⟨_, evaluate_eq hf hd hk.houses, hnext⟩
  · intro s s' l k hk
    obtain ⟨f', hf', hnext', hname⟩ := hk.head
    obtain ⟨f, hf, hnext, -⟩ := (hk.perm (.swap s s' l)).head
    by_cases hd : depth < FunctionMember.levels h
    · have hfails : ∀ {t t' e}, t.functionMember? = some e →
          ((t :: t' :: l).forM (evaluate h depth d) >>= fun _ => (pure v : Eval Value)) k =
            .error .tooDeep k :=
        fun ht => bind_of_error (bind_of_error (evaluate_of_shallow ht hd k))
      rw [hfails hf', hfails hf]
      exact .refl _ _ _
    · have hne : f'.name ≠ f.name := by
        refine fun heq => hname (heq ▸ List.mem_map_of_mem ?_)
        exact List.mem_filterMap.mpr ⟨s, .head _, hf⟩
      obtain ⟨g, hlevel, hfixes, hgapped⟩ := FunctionMember.install_comm hk.houses hne
      rw [forM_two (evaluate_eq hf' hd hk.houses) (evaluate_eq hf hd hnext'.houses),
        forM_two (evaluate_eq hf hd hk.houses) (evaluate_eq hf' hd hnext.houses)]
      have hrest : g.worlds.Agree ⟨⟩ g.Values (l.forM (evaluate h depth d) >>= fun _ => pure v)
          (l.forM (evaluate h depth d) >>= fun _ => pure v) := by
        rw [← stmts_eq]
        exact (hlevel.stmts_agree h depth d l).bind fun _ _ _ _ _ => Worlds.agree_pure (hv g hlevel)
      exact indistinct_mended hlevel (fixes_of_le hk.houses.low hfixes) hold hrest hgapped

/-! ### Declarations -/

theorem record_define {v : Value} {isPublic : Bool} {k k' : Machine} {u : Unit}
    (hd : define c n v isPublic k = .ok u k') (hi : (k.frame c.scope.frame).record ≠ some i) :
    k'.record i = k.record i := by
  cases hr : (k.frame c.scope.frame).record with
  | some j =>
    rw [define_of_record hr] at hd
    cases hd
    have hne : ¬ (j = i ∧ j < k.records.size) := fun hj => hi (hj.1 ▸ hr)
    rw [Machine.defineMember, Machine.record_setRecord, if_neg hne]
  | none =>
    cases hd
    dsimp only
    rw [hr]
    dsimp only
    split <;> rfl

theorem opened_record {isPublic : Bool} {o : Opened} (hm : m.Ranged)
    (ho : openModule c isPublic n m = .ok o m₁) :
    (m₁.frame o.inner.scope.frame).record = some o.id ∧
      ∀ y, (m₁.record o.id).visibility? y = none := by
  obtain ⟨⟨j, q, isOutermost⟩, k, hr, ho⟩ := bind_eq_ok ho
  obtain ⟨-, -, rfl, hk⟩ := Machine.register_eq_ok hr
  dsimp only at ho
  rw [get_bind] at ho
  obtain ⟨_, k', hd, ho⟩ := bind_eq_ok ho
  cases ho
  have hrecord : (k'.record m.records.size).visibility? = (fun _ => none) := by
    have hattached : (k.frame c.scope.frame).record ≠ some m.records.size := by
      subst hk
      exact fun he => Nat.lt_irrefl _ (hm.attached he)
    rw [record_define hd hattached, hk, Machine.record_push, if_pos rfl]
    rfl
  exact ⟨congrArg Frame.record (Machine.frame_pushFrame_size k' _), congrFun hrecord⟩

/-- A module that has just been opened has no members; what its name meant before is older. -/
theorem opened {isPublic : Bool} {o : Opened} (hm : m.Ranged) (hc : m.extent.HasContext c)
    (ho : openModule c isPublic n m = .ok o m₁) :
    m.extent.Le m₁.extent ∧ m₁.Houses m₁.functions o.inner o.id ∧
      (∀ y, (m₁.record o.id).visibility? y = none) ∧
        Sequel.Within m₁ (.dropped c n o.old o.path) := by
  -- to open a module does not depend on its body
  let l : Location := ⟨[], 0, 0⟩
  have hcode : Conduct.ranged.Code m.extent c (.module l isPublic n [.expr (.unit l)]) := hc
  have hkeeps := Conduct.keeps_openModule hcode m ⟨rfl, hm⟩
  rw [ho] at hkeeps
  obtain ⟨_, _, w, ⟨⟩, hlater, ⟨rfl, hranged⟩, hopens⟩ | ⟨_, _, _, ⟨⟩, -⟩ := hkeeps
  obtain ⟨_, -, ⟨rfl, -⟩, hbody⟩ := hopens.inner _ m₁ (Extent.le_refl _) ⟨rfl, hranged⟩
    fun _ _ _ hn => by cases hn
  obtain ⟨hattached, hfresh⟩ := opened_record hm ho
  exact ⟨hlater, ⟨hranged, hbody _ (.head _), hattached, Nat.le_refl _⟩, hfresh, hopens.slot,
    hopens.exported⟩

/-- A declaration of function members cannot be told apart from the one with its statements in another
order. -/
theorem declaration_reordered (hm : m.Ranged) (hc : m.extent.HasContext c) (hb : FunctionBody body)
    (hp : body.Perm body') (h : Host) (depth : Nat) (l : Location) (isPublic : Bool) (n : Ident) :
    Indistinct h m (run h depth (.eval c (.module l isPublic n body)) m)
      (run h depth (.eval c (.module l isPublic n body')) m) := by
  cases depth with
  | zero => exact .refl _ _ _
  | succ depth =>
    let self := (run h depth).below h (.node .module l)
    refine Indistinct.located (x := declareModule self c isPublic n body)
      (y := declareModule self c isPublic n body') ?_ l
    unfold declareModule
    simp only [self, hb.stmts_below, (hb.perm hp).stmts_below]
    rcases Invariant.openModule_cases c isPublic n m with ⟨o, m₁, ho⟩ | ⟨e, he⟩
    · obtain ⟨hl, hhouses, hfresh, hold⟩ := opened hm hc ho
      rw [bind_of_ok ho, bind_of_ok ho, mending_eq, mending_eq]
      refine .earlier hl ?_
      have hmodule : ∀ g : Gaps, g.Level → g.like.Matches (.module o.id o.path) (.module o.id o.path) :=
        fun g hg => .module ⟨(hg.records o.id).symm, rfl⟩
      have hnames : Declaring m₁ o.inner o.id (body.filterMap declared?) m₁ :=
        ⟨hhouses, hb.declared ▸ hb.distinct, fun q _ => hfresh q.1⟩
      have hdeclared := names_reordered (h := h) (hp.filterMap declared?) hnames hold fun g hg =>
        (hg.stmts_agree h (depth - h.gap .module .binding) o.inner body).bind fun _ _ _ _ _ =>
          Worlds.agree_pure (hmodule g hg)
      refine hdeclared.trans ?_
      obtain ⟨m₂, hrun, hhouses₂⟩ := (hnames.perm (hp.filterMap declared?)).run
      have hmembers : declareMembers o.id body' m₁ = .ok ⟨⟩ m₂ := hrun
      rw [bind_of_ok hrun, bind_of_ok hmembers]
      exact stmts_reordered hp ⟨hhouses₂, hb⟩ hold _ hmodule
    · rw [bind_of_error he, bind_of_error he]
      exact .refl _ _ _

/-- In every session, wherever code runs, to declare a module all of whose members are functions ends
alike whatever the order of its statements, and no program that is evaluated afterwards can tell. -/
theorem members_reordered (h : Host) (input : Text) (history : List Command) (command : Command) :
    Throughout h h.depth
      (fun t m => ∀ c s, t = .eval c s → ∀ depth l isPublic n body body', FunctionBody body →
        body.Perm body' →
          Indistinct h m (run h depth (.eval c (.module l isPublic n body)) m)
            (run h depth (.eval c (.module l isPublic n body')) m))
      (command.perform h) (after h input history).machine := by
  refine Invariant.throughout_imp (Invariant.uniform_perform h command _)
    (Machine.begins_ranged h input history command) ?_
  rintro t m ⟨hm, hcontext⟩ c s ht depth l isPublic n body body' hb hp
  exact declaration_reordered hm (hcontext c s ht) hb hp h depth l isPublic n

/-- A fault of the program of a source is one of the source. -/
theorem perform_of_fault {self : Step} {name text : Text} {program : Program} {f : Fault} {k : Machine}
    (hr : h.read name text = .ok program) (hl : h.recursionLimit ≤ Host.largestLimit)
    (he : execute self name globalFrame [preludeFrame, builtinsFrame] program m =
      .error (.fault f) k) : (Command.source name text).perform h self m = .error (.fault f) k := by
  have hguarded : runProgram h self name program m = .error (.fault f) k := by
    unfold runProgram guarded
    rw [if_neg (Int.not_lt.mpr hl), he]
  change (lift (h.read name text) >>= fun program => runProgram h self name program >>=
    fun r => pure r.1) m = _
  rw [hr]
  exact (bind_of_ok rfl).trans (bind_of_error hguarded)

/-- What holds throughout a source holds where its first statement begins. -/
theorem first_of_throughout {check : Task → Machine → Prop} {name text : Text} {s : Stmt}
    {rest : List Stmt} (hr : h.read name text = .ok (s :: rest))
    (hl : h.recursionLimit ≤ Host.largestLimit) (hd : 0 < h.depth)
    (ht : Throughout h h.depth check ((Command.source name text).perform h) m) :
    check (.eval (top ⟨name, globalFrame, m.exports.size⟩ [preludeFrame, builtinsFrame]) s)
      { m with exports := m.exports.push [] } := by
  refine Classical.byContradiction fun hc => ?_
  obtain ⟨depth, hdepth⟩ := Nat.exists_eq_add_of_lt hd
  rw [Nat.zero_add] at hdepth
  -- whatever fault the alarm at the first statement raises, the source ends with it
  have halarm : ∀ f : Fault, (Command.source name text).perform h
      (watched h check (fun _ => throw (.fault f)) h.depth) m =
        .error (.fault f) { m with exports := m.exports.push [] } := by
    intro f
    rw [hdepth]
    have hstmts : (watched h check (fun _ => throw (.fault f)) (depth + 1)).stmts
        (top ⟨name, globalFrame, m.exports.size⟩ [preludeFrame, builtinsFrame]) (s :: rest)
        { m with exports := m.exports.push [] } =
          .error (.fault f) { m with exports := m.exports.push [] } :=
      bind_of_error (watched_of_not_check hc _ depth)
    exact perform_of_fault hr hl ((bind_of_ok rfl).trans (bind_of_error hstmts))
  have hfirst := (halarm .overflow).symm.trans ((ht _).trans ((ht _).symm.trans (halarm .undecodable)))
  cases hfirst

/-- The body `let f = fn() => (); pub let g = fn() => f`. -/
def twoFunctions : List Stmt :=
  let l : Location := ⟨[], 0, 0⟩
  [.expr (.binding l "f" (.lambda l (some "f") [] (.unit l))),
    .publicBinding l "g" (.lambda l (some "g") [] (.name l "f"))]

theorem members_reordered_twoFunctions :
    FunctionBody twoFunctions ∧ twoFunctions.Perm twoFunctions.reverse ∧
      let m := (after (hostWith []) "" []).machine
      let c := top ⟨"<input>", globalFrame, m.exports.size⟩ [preludeFrame, builtinsFrame]
      let k : Machine := { m with exports := m.exports.push [] }
      Indistinct (hostWith []) k
        (run (hostWith []) 20 (.eval c (.module ⟨[], 0, 0⟩ false "M" twoFunctions)) k)
        (run (hostWith []) 20 (.eval c (.module ⟨[], 0, 0⟩ false "M" twoFunctions.reverse)) k) := by
  have hbody : FunctionBody twoFunctions :=
    ⟨List.forall_mem_cons.mpr ⟨⟨_, rfl⟩, List.forall_mem_singleton.mpr ⟨_, rfl⟩⟩, by decide⟩
  have hperm := (List.reverse_perm twoFunctions).symm
  obtain ⟨s, rest, hread⟩ : ∃ s rest, (hostWith []).read "<input>" "1" = .ok (s :: rest) := by
    have hone : ((hostWith []).read "<input>" "1").toOption.any (!·.isEmpty) = true := by
      decide +kernel
    cases hr : (hostWith []).read "<input>" "1" with
    | error e =>
      rw [hr] at hone
      cases hone
    | ok program =>
      cases program with
      | nil =>
        rw [hr] at hone
        cases hone
      | cons s rest => exact ⟨s, rest, rfl⟩
  have hfirst := first_of_throughout hread (by decide) (by decide)
    (members_reordered (hostWith []) "" [] (.source "<input>" "1"))
  exact ⟨hbody, hperm, hfirst _ s rfl 20 ⟨[], 0, 0⟩ false "M" twoFunctions twoFunctions.reverse hbody
    hperm⟩

end Reordering

end ModuleScript
