import ModuleScript.Eval.Bindings

/-!
# What names stand for

A name that is found stands for a member of the record of a frame in the scope, or for a slot of
such a frame. To read a name, plain or dotted, changes nothing. Before that come the laws of sources
that are read and of actions done one after another.
-/

set_option autoImplicit false

namespace ModuleScript

namespace Machine

theorem lookupIn_eq_some {m : Machine} {name : Ident} {id : FrameId} {r : Resolution}
    (h : m.lookupIn name id = some r) :
    r.frame = id ∧
      ((∃ i, r.owner = some i ∧ (m.frame id).record = some i ∧
          (m.record i).member? name = some (r.slot, r.visibility)) ∨
        (r.owner = none ∧ r.visibility = .isPublic ∧
          (m.frame id).bindings.get? name = some r.slot)) := by
  unfold lookupIn at h
  dsimp only at h
  have hslot : ∀ {o : Option Slot}, (o.map fun s => Resolution.mk s id none .isPublic) = some r →
      r.frame = id ∧ r.owner = none ∧ r.visibility = .isPublic ∧ o = some r.slot := by
    intro o ho
    cases o with
    | none => cases ho
    | some s =>
      cases ho
      exact ⟨rfl, rfl, rfl, rfl⟩
  cases hr : (m.frame id).record with
  | none =>
    rw [hr] at h
    obtain ⟨hf, ho⟩ := hslot h
    exact ⟨hf, .inr ho⟩
  | some i =>
    cases hm : (m.record i).member? name with
    | none =>
      simp only [hr, Option.bind_some, hm] at h
      obtain ⟨hf, ho⟩ := hslot h
      exact ⟨hf, .inr ho⟩
    | some p =>
      obtain ⟨s, v⟩ := p
      simp only [hr, Option.bind_some, hm] at h
      cases h
      exact ⟨rfl, .inl ⟨i, rfl, rfl, hm⟩⟩

theorem lookup_eq_some {m : Machine} {s : Scope} {name : Ident} {r : Resolution}
    (h : m.lookup s name = some r) : r.frame ∈ s.chain ∧ m.lookupIn name r.frame = some r := by
  obtain ⟨id, hid, hr⟩ := List.exists_of_findSome?_eq_some h
  rw [(lookupIn_eq_some hr).1]
  exact ⟨hid, hr⟩

end Machine

theorem ok_of_lift {α : Type} {r : Except Fault α} {a : α} (hr : Failure.lift r = .ok a) :
    r = .ok a := by
  cases r with
  | ok b =>
    cases hr
    rfl
  | error e => cases hr

namespace Report

theorem locate_of_location {r : Report} (hr : r.location ≠ none) (l : Location)
    (excerpt : Option Text) : r.locate l excerpt = r := by
  unfold locate
  split
  · rfl
  · rename_i hnone
    exact absurd hnone hr

theorem location_locate_ne_none (r : Report) (l : Location) (excerpt : Option Text) :
    (r.locate l excerpt).location ≠ none := by
  unfold locate
  cases hr : r.location with
  | some l' => simp only [hr, ne_eq, reduceCtorEq, not_false_eq_true]
  | none => exact Option.some_ne_none l

theorem kind_locate (r : Report) (l : Location) (excerpt : Option Text) :
    (r.locate l excerpt).kind = r.kind := by
  unfold locate
  split <;> rfl

theorem message_locate (r : Report) (l : Location) (excerpt : Option Text) :
    (r.locate l excerpt).message = r.message := by
  unfold locate
  split <;> rfl

end Report

/-- What comes out of a node for a failure inside it: a report that has no place gets that of the
node. -/
def Failure.placed (h : Host) (l : Location) : Failure → Failure
  | .report r => .report (r.locate l (h.excerptAt l))
  | f => f

theorem program_of_read {h : Host} {file source : Text} {program : Program}
    (hr : h.read file source = .ok program) : readProgram file source = .ok program := by
  unfold Host.read at hr
  cases hp : readProgram file source with
  | error f =>
    rw [hp] at hr
    cases hr
  | ok p =>
    rw [hp] at hr
    cases hr
    rfl

theorem failure_of_read {h : Host} {file source : Text} {e : Failure}
    (hr : h.read file source = .error e) :
    ∃ f, readProgram file source = .error f ∧ e = h.addExcerpt f := by
  unfold Host.read at hr
  cases hp : readProgram file source with
  | ok p =>
    rw [hp] at hr
    cases hr
  | error f =>
    rw [hp] at hr
    cases hr
    exact ⟨f, rfl, rfl⟩

theorem report_of_read {h : Host} {file source : Text} {r : Report}
    (hr : h.read file source = .error (.report r)) :
    ∃ r₀, readProgram file source = .error (.report r₀) ∧
      r = { r₀ with context := r₀.location.bind h.excerptAt } := by
  obtain ⟨f, hf, he⟩ := failure_of_read hr
  cases f with
  | report r₀ =>
    cases he
    exact ⟨r₀, hf, rfl⟩
  | fault | tooDeep => cases he

namespace Eval

variable {α β : Type}

theorem bind_of_ok {x : Eval α} {f : α → Eval β} {a : α} {m m' : Machine} (h : x m = .ok a m') :
    (x >>= f) m = f a m' := by
  change EStateM.bind x f m = f a m'
  simp only [EStateM.bind, h]

theorem bind_of_error {x : Eval α} {f : α → Eval β} {e : Failure} {m m' : Machine}
    (h : x m = .error e m') : (x >>= f) m = .error e m' := by
  change EStateM.bind x f m = .error e m'
  simp only [EStateM.bind, h]

theorem change_of_ok {f : Machine → Except Failure Machine} {m m' : Machine} (h : f m = .ok m') :
    change f m = .ok ⟨⟩ m' := by
  unfold change
  rw [h]

theorem change_of_error {f : Machine → Except Failure Machine} {m : Machine} {e : Failure}
    (h : f m = .error e) : change f m = .error e m := by
  unfold change
  rw [h]

theorem bind_eq_ok {x : Eval α} {f : α → Eval β} {b : β} {m m' : Machine}
    (h : (x >>= f) m = .ok b m') : ∃ a k, x m = .ok a k ∧ f a k = .ok b m' := by
  cases hx : x m with
  | ok a k => exact ⟨a, k, rfl, (bind_of_ok hx).symm.trans h⟩
  | error e k =>
    rw [bind_of_error hx] at h
    cases h

theorem change_eq_ok {f : Machine → Except Failure Machine} {u : Unit} {m m' : Machine}
    (h : change f m = .ok u m') : f m = .ok m' := by
  cases hf : f m with
  | ok k =>
    rw [change_of_ok hf] at h
    cases h
    rfl
  | error e =>
    rw [change_of_error hf] at h
    cases h

theorem declare_eq_ok {i : RecordId} {n : Ident} {v : Visibility} {m m' : Machine}
    (h : ((m.record i).declare n v).map (m.setRecord i) = .ok m') :
    ∃ r, (m.record i).declare n v = .ok r ∧ m.setRecord i r = m' := by
  cases hr : (m.record i).declare n v with
  | ok r =>
    rw [hr] at h
    cases h
    exact ⟨r, rfl, rfl⟩
  | error e =>
    rw [hr] at h
    cases h

theorem lift_eq_ok {r : Except Failure α} {a : α} {m m' : Machine} (h : lift r m = .ok a m') :
    m' = m ∧ r = .ok a := by
  cases r with
  | ok b =>
    cases h
    exact ⟨rfl, rfl⟩
  | error e => cases h

theorem located_of_ok {x : Eval α} {a : α} {m m' : Machine} (h : Host) (l : Location)
    (hx : x m = .ok a m') : located h l x m = .ok a m' := by
  unfold located
  rw [hx]

theorem located_of_error {x : Eval α} {e : Failure} {m m' : Machine} (h : Host) (l : Location)
    (he : x m = .error e m') : located h l x m = .error (e.placed h l) m' := by
  unfold located
  rw [he]
  cases e with
  | fault f => rfl
  | tooDeep => rfl
  | report r =>
    cases hr : r.location with
    | none =>
      simp only [hr]
      rfl
    | some l' =>
      have hkept : r.locate l (h.excerptAt l) = r :=
        r.locate_of_location (hr ▸ Option.some_ne_none l') l _
      simp only [hr, Failure.placed, hkept]

theorem located_congr {x y : Eval α} {m : Machine} (h : Host) (l : Location) (he : x m = y m) :
    located h l x m = located h l y m := by
  unfold located
  rw [he]

theorem located_eq_ok {h : Host} {l : Location} {x : Eval α} {a : α} {m m' : Machine}
    (he : located h l x m = .ok a m') : x m = .ok a m' := by
  cases hx : x m with
  | ok b k => rwa [located_of_ok h l hx] at he
  | error e k =>
    rw [located_of_error h l hx] at he
    cases he

theorem located_eq_placed {h : Host} {l : Location} {x : Eval α} {e : Failure} {m m' : Machine}
    (he : located h l x m = .error e m') : ∃ e', x m = .error e' m' ∧ e = e'.placed h l := by
  cases hx : x m with
  | ok a k =>
    rw [located_of_ok h l hx] at he
    cases he
  | error e' k =>
    rw [located_of_error h l hx] at he
    cases he
    exact ⟨e', rfl, rfl⟩

theorem located_eq_error {h : Host} {l : Location} {x : Eval α} {e : Failure} {m m' : Machine}
    (he : located h l x m = .error e m') : ∃ e', x m = .error e' m' := by
  obtain ⟨e', hx, -⟩ := located_eq_placed he
  exact ⟨e', hx⟩

theorem mending_of_ok {x : Eval α} {a : α} {m m' : Machine} (mend : Machine → Machine)
    (hx : x m = .ok a m') : mending x mend m = .ok a m' := by
  unfold mending
  rw [hx]

theorem mending_of_error {x : Eval α} {e : Failure} {m m' : Machine} (mend : Machine → Machine)
    (hx : x m = .error e m') : mending x mend m = .error e (mend m') := by
  unfold mending
  rw [hx]

theorem mending_congr {x y : Eval α} {m : Machine} (he : x m = y m) (mend : Machine → Machine) :
    mending x mend m = mending y mend m := by
  unfold mending
  rw [he]

theorem mending_eq_ok {x : Eval α} {mend : Machine → Machine} {a : α} {m m' : Machine}
    (he : mending x mend m = .ok a m') : x m = .ok a m' := by
  cases hx : x m with
  | ok b k => rwa [mending_of_ok mend hx] at he
  | error e k =>
    rw [mending_of_error mend hx] at he
    cases he

theorem mending_eq_error {x : Eval α} {mend : Machine → Machine} {e : Failure} {m m' : Machine}
    (he : mending x mend m = .error e m') : ∃ k, x m = .error e k ∧ m' = mend k := by
  cases hx : x m with
  | ok a k =>
    rw [mending_of_ok mend hx] at he
    cases he
  | error f k =>
    rw [mending_of_error mend hx] at he
    cases he
    exact ⟨k, rfl, rfl⟩

theorem get_bind (f : Machine → Eval α) (m : Machine) : (get >>= f) m = f m m := rfl

/-- A computation that leaves every machine as it is. -/
def Reads (x : Eval α) : Prop :=
  ∀ m, (∃ a, x m = .ok a m) ∨ ∃ e, x m = .error e m

theorem reads_pure (a : α) : Reads (pure a) := fun _ => .inl ⟨a, rfl⟩

theorem reads_throw (e : Failure) : Reads (throw e : Eval α) := fun _ => .inr ⟨e, rfl⟩

theorem reads_because (c : Cause) : Reads (because c : Eval α) := reads_throw _

theorem reads_get {f : Machine → Eval α} (hf : ∀ m, Reads (f m)) : Reads (get >>= f) :=
  fun m => hf m m

theorem Reads.bind {x : Eval α} {f : α → Eval β} (hx : Reads x) (hf : ∀ a, Reads (f a)) :
    Reads (x >>= f) := by
  intro m
  rcases hx m with ⟨a, ha⟩ | ⟨e, he⟩
  · rw [bind_of_ok ha]
    exact hf a m
  · exact .inr ⟨e, bind_of_error he⟩

theorem readSlot_of_refused {code : Option ModulePath} {path : ModulePath} {vis : Visibility}
    (h : canAccess code path vis = false) (name : Ident) (s : Slot) :
    readSlot code (some path) vis name s = because (.privateMember name path.text) := by
  unfold readSlot
  simp [Option.filter, h]

/-- What is read from a slot is in it, and not refused. -/
theorem readSlot_cases (code owner : Option ModulePath) (vis : Visibility) (name : Ident)
    (s : Slot) :
    (∃ v, readSlot code owner vis name s = pure v ∧ s = .value v ∧
        ∀ path, owner = some path → canAccess code path vis = true) ∨
      ∃ e, readSlot code owner vis name s = throw e := by
  cases hf : owner.filter fun path => !canAccess code path vis with
  | some path =>
    refine .inr ⟨.report (Cause.privateMember name path.text).report, ?_⟩
    unfold readSlot
    rw [hf]
    rfl
  | none =>
    have hopen : ∀ path, owner = some path → canAccess code path vis = true := by
      rintro path rfl
      simpa [Option.filter] using hf
    unfold readSlot
    rw [hf]
    cases s with
    | pending => exact .inr ⟨_, rfl⟩
    | value v => exact .inl ⟨v, rfl, rfl, hopen⟩

theorem reads_readSlot (code owner : Option ModulePath) (v : Visibility) (name : Ident) (s : Slot) :
    Reads (readSlot code owner v name s) := by
  rcases readSlot_cases code owner v name s with ⟨u, hu, -⟩ | ⟨e, he⟩
  · rw [hu]
    exact reads_pure u
  · rw [he]
    exact reads_throw e

theorem resolve_of_none {c : Context} {name : Ident} {m : Machine}
    (h : m.lookup c.scope name = none) : resolve c name m = because (.unbound name) m := by
  unfold resolve
  rw [get_bind, h]

theorem resolve_of_some {c : Context} {name : Ident} {m : Machine} {r : Resolution}
    (h : m.lookup c.scope name = some r) :
    resolve c name m = (readSlot c.module (r.owner.map fun id => (m.record id).path) r.visibility
      name r.slot >>= fun v => pure (r, v)) m := by
  unfold resolve
  rw [get_bind, h]

theorem follow_of_none {c : Context} {m : Machine} {id : RecordId} {name : Ident} (walked : Text)
    (path : ModulePath) (rest : List Ident) (h : (m.record id).member? name = none) :
    follow c walked (.module id path) (name :: rest) m = because (.noMember path.text name) m := by
  rw [follow, get_bind, h]

theorem follow_of_some {c : Context} {m : Machine} {id : RecordId} {name : Ident} {slot : Slot}
    {vis : Visibility} (walked : Text) (path : ModulePath) (rest : List Ident)
    (h : (m.record id).member? name = some (slot, vis)) :
    follow c walked (.module id path) (name :: rest) m =
      (readSlot c.module (some path) vis name slot >>= fun v =>
        follow c (walked ++ "." ++ name) v rest) m := by
  rw [follow, get_bind, h]

theorem reads_resolve (c : Context) (name : Ident) : Reads (resolve c name) := by
  refine reads_get fun m => ?_
  cases m.lookup c.scope name with
  | none => exact reads_because _
  | some r => exact (reads_readSlot _ _ _ _ _).bind fun v => reads_pure (r, v)

theorem reads_follow (c : Context) (walked : Text) (v : Value) (names : List Ident) :
    Reads (follow c walked v names) := by
  induction names generalizing walked v with
  | nil => exact reads_pure v
  | cons name rest ih =>
    cases v with
    | module id path =>
      refine reads_get fun m => ?_
      cases (m.record id).member? name with
      | none => exact reads_because _
      | some p => exact (reads_readSlot _ _ _ _ _).bind fun v => ih _ v
    | _ => exact reads_because _

theorem reads_dotted (c : Context) (names : List Ident) : Reads (dotted c names) := by
  cases names with
  | nil => exact reads_pure Value.unit
  | cons first rest => exact (reads_resolve c first).bind fun _ => reads_follow c first _ rest

theorem resolve_of_refused {c : Context} {name : Ident} {m : Machine} {r : Resolution}
    {id : RecordId} (hl : m.lookup c.scope name = some r) (ho : r.owner = some id)
    (ha : canAccess c.module (m.record id).path r.visibility = false) :
    resolve c name m = because (.privateMember name (m.record id).path.text) m := by
  rw [resolve_of_some hl, ho, Option.map_some, readSlot_of_refused ha]
  rfl

theorem follow_append {c : Context} {m : Machine} {before : List Ident} (rest : List Ident)
    {walked : Text} {v u : Value} (h : follow c walked v before m = .ok u m) :
    ∃ walked', follow c walked v (before ++ rest) m = follow c walked' u rest m := by
  induction before generalizing walked v with
  | nil =>
    cases h
    exact ⟨walked, rfl⟩
  | cons name before ih =>
    cases v with
    | module id path =>
      cases hm : (m.record id).member? name with
      | none =>
        rw [follow_of_none walked path before hm] at h
        cases h
      | some p =>
        obtain ⟨slot, visibility⟩ := p
        rw [follow_of_some walked path before hm] at h
        rw [List.cons_append, follow_of_some walked path (before ++ rest) hm]
        rcases readSlot_cases c.module (some path) visibility name slot with ⟨w, hw, -⟩ | ⟨e, he⟩
        · rw [hw] at h ⊢
          exact ih h
        · rw [he] at h
          cases h
    | _ => cases h

/-- Dotted names lead on from what their first part leads to. -/
theorem dotted_append {c : Context} {m : Machine} {before : List Ident} (hne : before ≠ [])
    (rest : List Ident) {v : Value} (h : dotted c before m = .ok v m) :
    ∃ walked, dotted c (before ++ rest) m = follow c walked v rest m := by
  cases before with
  | nil => exact absurd rfl hne
  | cons first before =>
    have hdotted : ∀ names, dotted c (first :: names) m =
        (resolve c first >>= fun r => follow c first r.2 names) m := fun _ => rfl
    rw [hdotted] at h
    rw [List.cons_append, hdotted]
    rcases reads_resolve c first m with ⟨r, hr⟩ | ⟨e, he⟩
    · rw [bind_of_ok hr] at h ⊢
      exact follow_append rest h
    · rw [bind_of_error he] at h
      cases h

/-- A name that is resolved was found, with a value that is not refused. -/
theorem resolve_eq_ok {c : Context} {name : Ident} {r : Resolution} {v : Value} {m m' : Machine}
    (h : resolve c name m = .ok (r, v) m') :
    m' = m ∧ m.lookup c.scope name = some r ∧ r.slot = .value v ∧
      ∀ id, r.owner = some id → canAccess c.module (m.record id).path r.visibility = true := by
  cases hl : m.lookup c.scope name with
  | none =>
    rw [resolve_of_none hl] at h
    cases h
  | some q =>
    rw [resolve_of_some hl] at h
    rcases readSlot_cases c.module (q.owner.map fun id => (m.record id).path) q.visibility name
      q.slot with ⟨u, hu, hs, ha⟩ | ⟨e, he⟩
    · rw [hu] at h
      cases h
      refine ⟨rfl, rfl, hs, fun id hid => ha _ ?_⟩
      rw [hid]
      rfl
    · rw [he] at h
      cases h

end Eval

end ModuleScript
