import ModuleScript.Proofs.Invariant.Together
import ModuleScript.Proofs.Modules.Runs
import ModuleScript.Proofs.Scopes.Rooms

/-!
# Members come first

In the body of a module, a name that the body declares stands for the member of the module, whatever
it means further outside: from the first statement of the body on, in all code written in the body,
unless a frame between the code and the body binds the name as well. It has the member's value. While
the member has none it cannot be used, and code of a module further inside is refused a private one;
in neither case does the name fall back on anything else.
-/

set_option autoImplicit false

namespace ModuleScript

open Eval Session

/-! ## Names of members -/

/-- What a name comes to that stands for a member of the module with this path. Code that stands in a
module further inside is refused private members. -/
def memberOutcome (n : Ident) (path : ModulePath) (vis : Visibility) (further : Bool) (s : Slot) :
    Except Cause Value :=
  if vis = .isPrivate ∧ further = true then .error (.privateMember n path.text)
  else match s with
    | .pending => .error (.uninitialized n)
    | .value v => .ok v

/-- In this context the name stands for the member of the module that the frame belongs to. -/
structure StandsForMember (h : Host) (m : Machine) (c : Context) (n : Ident) (f : FrameId)
    (vis : Visibility) (further : Bool) (i : RecordId) (s : Slot) : Prop where
  attached : (m.frame f).record = some i
  member : (m.record i).member? n = some (s, vis)
  lookup : m.lookup c.scope n = some ⟨s, f, some i, vis⟩
  resolves : resolve c n m =
    match memberOutcome n (m.record i).path vis further s with
    | .ok v => .ok (⟨s, f, some i, vis⟩, v) m
    | .error cause => .error (.report cause.report) m
  runs : ∀ depth l, run h (depth + 1) (.eval c (.expr (.name l n))) m =
    match memberOutcome n (m.record i).path vis further s with
    | .ok v => .ok v m
    | .error cause => .error (.report (cause.report.locate l (h.excerptAt l))) m

namespace Machine

variable {m : Machine} {c : Context} {n : Ident} {f : FrameId} {i : RecordId} {s : Slot}
  {vis : Visibility}

theorem lookupIn_of_member (hf : (m.frame f).record = some i)
    (hn : (m.record i).member? n = some (s, vis)) :
    m.lookupIn n f = some ⟨s, f, some i, vis⟩ := by
  unfold lookupIn
  dsimp only
  rw [hf, Option.bind_some, hn]
  rfl

/-- Frames in which a name means nothing are passed by. -/
theorem lookup_of_passed {inner outer : List FrameId} {r : Resolution}
    (hchain : c.scope.chain = inner ++ f :: outer) (hinner : ∀ g ∈ inner, m.lookupIn n g = none)
    (hf : m.lookupIn n f = some r) : m.lookup c.scope n = some r := by
  unfold lookup
  rw [hchain, List.findSome?_append, List.findSome?_eq_none_iff.mpr hinner, List.findSome?_cons, hf]
  rfl

end Machine

theorem readSlot_of_member {code : Option ModulePath} {path : ModulePath} {n : Ident}
    {vis : Visibility} {further : Bool} {s : Slot}
    (haccess : canAccess code path vis = !(decide (vis = .isPrivate) && further)) :
    readSlot code (some path) vis n s =
      match memberOutcome n path vis further s with
      | .ok v => pure v
      | .error cause => because cause := by
  unfold memberOutcome
  by_cases hrefused : vis = .isPrivate ∧ further = true
  · have hdenied : canAccess code path vis = false := by
      rw [haccess]
      simp [hrefused.1, hrefused.2]
    rw [readSlot_of_refused hdenied, if_pos hrefused]
  · have hpass : canAccess code path vis = true := by
      rw [haccess]
      cases vis <;> cases further <;> simp_all
    rw [if_neg hrefused]
    unfold readSlot
    simp only [Option.filter, hpass]
    cases s with
    | pending => rfl
    | value v => rfl

theorem standsForMember_of_lookup (h : Host) {m : Machine} {c : Context} {n : Ident} {f : FrameId}
    {vis : Visibility} {further : Bool} {i : RecordId} {s : Slot} (hf : (m.frame f).record = some i)
    (hn : (m.record i).member? n = some (s, vis))
    (hlookup : m.lookup c.scope n = some ⟨s, f, some i, vis⟩)
    (haccess : canAccess c.module (m.record i).path vis =
      !(decide (vis = .isPrivate) && further)) :
    StandsForMember h m c n f vis further i s := by
  have hresolve : resolve c n m =
      match memberOutcome n (m.record i).path vis further s with
      | .ok v => .ok (⟨s, f, some i, vis⟩, v) m
      | .error cause => .error (.report cause.report) m := by
    rw [resolve_of_some hlookup, Option.map_some, readSlot_of_member haccess]
    cases memberOutcome n (m.record i).path vis further s with
    | ok v => rfl
    | error cause => rfl
  refine ⟨hf, hn, hlookup, hresolve, fun depth l => ?_⟩
  have hname : run h (depth + 1) (.eval c (.expr (.name l n))) m =
      located h l (resolve c n >>= fun r => pure r.2) m := rfl
  rw [hname]
  unfold located
  cases hout : memberOutcome n (m.record i).path vis further s with
  | ok v =>
    rw [hout] at hresolve
    rw [bind_of_ok hresolve]
    rfl
  | error cause =>
    rw [hout] at hresolve
    rw [bind_of_error hresolve]
    rfl

namespace Rooms

variable {h : Host} {commands : List Command} {m : Machine} {o : Origin}
  {code : Option ModulePath} {rooms inner outer : List Room} {s : Stmt} {f : FrameId}
  {l : Location} {isPublic : Bool} {n : Ident} {body : List Stmt}

/-! ## The modules around a node -/

/-- How many modules code stands in. -/
def nesting (code : Option ModulePath) : Nat := code.elim 0 (·.names.length)

theorem nesting_below (source : Text) (code : Option ModulePath) (n : Ident) :
    (ModulePath.below source code n).names.length = nesting code + 1 := by
  cases code with
  | none => rfl
  | some p => simp [ModulePath.below, ModulePath.child, nesting]

/-- Code stands in as many modules as there are rooms made for module bodies around it. -/
theorem Situated.nesting (hs : Situated h commands m o code rooms s) :
    Rooms.nesting code = rooms.countP Room.isModule := by
  induction hs with
  | top => rfl
  | part _ _ ih => exact ih
  | inside _ hplain _ _ ih =>
    rw [List.countP_cons_of_neg, ih]
    simp [Room.isModule, hplain]
  | member _ _ _ ih =>
    rw [List.countP_cons_of_pos rfl, ← ih]
    exact nesting_below _ _ _

/-- The frame of a module body around a node belongs to the module, which has the members of the body.
The node is code of this module if no other module stands between them. -/
theorem Situated.furnished (hs : Situated h commands m o code rooms s)
    (hrooms : rooms = inner ++ ⟨f, .module l isPublic n body⟩ :: outer) :
    ∃ path i, m.Furnished f path body i ∧ path.names.length = outer.countP Room.isModule + 1 ∧
      (inner.any Room.isModule = false → code = some path) := by
  induction hs generalizing inner with
  | top =>
    have hlength := congrArg List.length hrooms
    simp at hlength
  | part _ _ ih => exact ih hrooms
  | @inside code rooms s t g hs hplain _ _ ih =>
    cases inner with
    | nil =>
      cases hrooms
      cases hplain
    | cons r inner =>
      obtain ⟨rfl, hrest⟩ := List.cons.inj hrooms
      obtain ⟨path, i, hf, hlength, hcode⟩ := ih hrest
      refine ⟨path, i, hf, hlength, fun hany => hcode ?_⟩
      rw [List.any_cons, Bool.or_eq_false_iff] at hany
      exact hany.2
  | @member code rooms l' isPublic' n' body' t g i source hs hf _ ih =>
    cases inner with
    | nil =>
      cases hrooms
      refine ⟨_, i, hf, ?_, fun _ => rfl⟩
      rw [nesting_below, hs.nesting]
    | cons r inner =>
      obtain ⟨rfl, hrest⟩ := List.cons.inj hrooms
      obtain ⟨path, j, hf, hlength, -⟩ := ih hrest
      refine ⟨path, j, hf, hlength, fun hany => ?_⟩
      simp [Room.isModule, Stmt.isModule] at hany

/-- Code in a module further inside is code of another module. -/
theorem Situated.canAccess_eq (hs : Situated h commands m o code rooms s) {path : ModulePath}
    (hrooms : rooms = inner ++ ⟨f, .module l isPublic n body⟩ :: outer)
    (hlength : path.names.length = outer.countP Room.isModule + 1)
    (hcode : inner.any Room.isModule = false → code = some path) (vis : Visibility) :
    canAccess code path vis = !(decide (vis = .isPrivate) && inner.any Room.isModule) := by
  cases vis with
  | isPublic => rfl
  | isPrivate =>
    cases hany : inner.any Room.isModule with
    | false =>
      rw [hcode hany]
      simp [canAccess]
    | true =>
      have hdeeper : code ≠ some path := by
        rintro rfl
        have hcount := hs.nesting
        rw [hrooms, List.countP_append, List.countP_cons_of_pos rfl] at hcount
        change path.names.length = _ at hcount
        have hpos : 0 < inner.countP Room.isModule :=
          List.countP_pos_iff.mpr (List.any_eq_true.mp hany)
        omega
      simp [canAccess, hdeeper]

/-! ## Members before all else -/

/-- A node runs in the rooms around it. Of these, one that was made for the body of a module decides
what the names mean that the body declares, unless one further inside binds them. -/
def MembersFirst (h : Host) (commands : List Command) : Task → Machine → Prop
  | .eval c s, m => ∃ o rooms, Situated h commands m o c.module rooms s ∧
      c.scope.chain = rooms.map Room.frame ++ o.ground ∧
      ∀ inner f l isPublic name body outer,
        rooms = inner ++ ⟨f, .module l isPublic name body⟩ :: outer →
        ∀ n vis, (n, vis) ∈ body.filterMap declared? →
        (∀ r ∈ inner, m.lookupIn n r.frame = none) →
        ∃ i slot, StandsForMember h m c n f vis (inner.any Room.isModule) i slot
  | _, _ => True

theorem membersFirst_of_around (hm : m.WellFormed) {t : Task}
    (ht : ∀ c s, t = .eval c s → Around h commands m c.module c.scope.chain s) :
    MembersFirst h commands t m := by
  cases t with
  | apply | ask | wait => trivial
  | eval c s =>
    obtain ⟨o, rooms, hs, hchain⟩ := ht c s rfl
    refine ⟨o, rooms, hs, hchain, ?_⟩
    intro inner f l isPublic name body outer hrooms n vis hn hinner
    obtain ⟨path, i, hf, hlength, hcode⟩ := hs.furnished hrooms
    obtain ⟨slot, hmember⟩ := Record.member?_of_tiered (hm.tiered i) (hf.members n vis hn)
    have hsplit : c.scope.chain =
        inner.map Room.frame ++ f :: (outer.map Room.frame ++ o.ground) := by
      rw [hchain, hrooms]
      simp
    have hpassed : ∀ g ∈ inner.map Room.frame, m.lookupIn n g = none :=
      List.forall_mem_map.mpr hinner
    have hlookup : m.lookup c.scope n = some ⟨slot, f, some i, vis⟩ :=
      Machine.lookup_of_passed hsplit hpassed (Machine.lookupIn_of_member hf.attached hmember)
    refine ⟨i, slot, standsForMember_of_lookup h hf.attached hmember hlookup ?_⟩
    rw [hf.path]
    exact hs.canAccess_eq hrooms hlength hcode vis

/-- In every session, all code finds the members that the module bodies around it declare, from the
first statement of a body on, before anything that the same names mean further outside. -/
theorem members_found_first (h : Host) (input : Text) (history : List Command) (command : Command) :
    Throughout h h.depth (MembersFirst h (history ++ [command])) (command.perform h)
      (after h input history).machine := by
  have htable : Throughout h h.depth (fun _ m => m.WellFormed) (command.perform h)
      (after h input history).machine :=
    ModuleTable.throughout_perform h input history command fun _ _ hm _ => hm.1
  have huniform := Invariant.uniform_perform h command (after h input history).machine
  exact Invariant.throughout_imp huniform
    (Invariant.throughout_and huniform htable (throughout_around h input history command))
    fun _ _ ht => membersFirst_of_around ht.1 ht.2

end Rooms

end ModuleScript
