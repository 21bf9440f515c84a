import ModuleScript.Proofs.Privacy.Actions

/-!
# Names under a discipline

On machines that are alike a name stands for the same, unless it is a secret member; and a secret
member is refused alike to all code but that of its own module, which does not mention it.
-/

set_option autoImplicit false

namespace ModuleScript.Discipline

open Eval

variable {D : Discipline} {m n : Machine} {c : Context} {x : Ident}

theorem AlikeRecord.member? {r r' : Record} (h : D.AlikeRecord r r') (x : Ident) :
    Option.Rel (fun p q => p.2 = q.2 ∧ (p.1 = q.1 ∨ p.2 = .isPrivate ∧ D.Secret r.path x))
      (r.member? x) (r'.member? x) := by
  unfold Record.member?
  rw [← h.publicMembers]
  cases r.publicMembers.get? x with
  | some s => exact .some ⟨rfl, .inl rfl⟩
  | none =>
    have hp := h.privateMembers.get? x
    generalize r.privateMembers.get? x = s, r'.privateMembers.get? x = t at hp
    cases hp with
    | none => exact .none
    | some hs =>
      rcases hs with hs | hs
      · exact .some ⟨rfl, .inr ⟨rfl, hs⟩⟩
      · exact .some ⟨rfl, .inl hs⟩

/-- What a name stands for in two machines, the same but for what secret members hold. -/
structure AlikeResolution (D : Discipline) (m : Machine) (x : Ident) (r r' : Resolution) : Prop where
  frame : r.frame = r'.frame
  owner : r.owner = r'.owner
  visibility : r.visibility = r'.visibility
  slot : r.slot = r'.slot ∨
    ∃ i, r.owner = some i ∧ r.visibility = .isPrivate ∧ D.Secret (m.record i).path x

theorem Alike.lookupIn (h : D.Alike m n) (x : Ident) (i : FrameId) :
    Option.Rel (AlikeResolution D m x) (m.lookupIn x i) (n.lookupIn x i) := by
  unfold Machine.lookupIn
  rw [h.frame i]
  dsimp only
  have hplain : Option.Rel (AlikeResolution D m x)
      (((m.frame i).bindings.get? x).map fun s => ⟨s, i, none, .isPublic⟩)
      (((m.frame i).bindings.get? x).map fun s => ⟨s, i, none, .isPublic⟩) := by
    cases (m.frame i).bindings.get? x with
    | none => exact .none
    | some s => exact .some ⟨rfl, rfl, rfl, .inl rfl⟩
  cases (m.frame i).record with
  | none => exact hplain
  | some r =>
    have hm := (h.record r).member? x
    simp only [Option.bind_some]
    generalize (m.record r).member? x = p, (n.record r).member? x = q at hm
    cases hm with
    | none => exact hplain
    | some hpq =>
      obtain ⟨hv, hs⟩ := hpq
      refine .some ⟨rfl, rfl, hv, ?_⟩
      rcases hs with hs | ⟨hp, hs⟩
      · exact .inl hs
      · exact .inr ⟨r, rfl, hp, hs⟩

theorem Alike.lookup (h : D.Alike m n) (s : Scope) (x : Ident) :
    Option.Rel (AlikeResolution D m x) (m.lookup s x) (n.lookup s x) := by
  unfold Machine.lookup
  induction s.chain with
  | nil => exact .none
  | cons i rest ih =>
    rw [List.findSome?_cons, List.findSome?_cons]
    have hi := h.lookupIn x i
    generalize m.lookupIn x i = r, n.lookupIn x i = r' at hi
    cases hi with
    | none => exact ih
    | some hr => exact .some hr

theorem Sound.valid_of_member (hs : D.Sound m) {i : RecordId} {v : Value} {vis : Visibility}
    (hm : (m.record i).member? x = some (.value v, vis)) (hx : ¬ D.Secret (m.record i).path x) :
    D.Valid m v := by
  unfold Record.member? at hm
  cases hp : (m.record i).publicMembers.get? x with
  | some t =>
    rw [hp] at hm
    cases hm
    exact hs.publicMembers (Bindings.mem_of_get? hp)
  | none =>
    rw [hp] at hm
    cases hq : (m.record i).privateMembers.get? x with
    | none =>
      rw [hq] at hm
      cases hm
    | some t =>
      rw [hq] at hm
      cases hm
      exact hs.privateMembers (Bindings.mem_of_get? hq) hx

theorem Sound.valid_of_lookup (hs : D.Sound m) {s : Scope} {r : Resolution} {v : Value}
    (hl : m.lookup s x = some r) (hv : r.slot = .value v)
    (hx : ∀ i, r.owner = some i → ¬ D.Secret (m.record i).path x) : D.Valid m v := by
  obtain ⟨-, hin⟩ := Machine.lookup_eq_some hl
  obtain ⟨-, ⟨i, ho, -, hm⟩ | ⟨-, -, hb⟩⟩ := Machine.lookupIn_eq_some hin
  · rw [hv] at hm
    exact hs.valid_of_member hm (hx i ho)
  · rw [hv] at hb
    exact hs.slots (Bindings.mem_of_get? hb)

/-- A name that is public in a record is no secret of it. -/
theorem Sound.not_secret_of_public (hs : D.Sound m) {i : RecordId} {s : Slot}
    (hm : (m.record i).member? x = some (s, .isPublic)) : ¬ D.Secret (m.record i).path x := by
  unfold Record.member? at hm
  cases hp : (m.record i).publicMembers.get? x with
  | some t => exact hs.unhidden (Bindings.mem_of_get? hp)
  | none =>
    rw [hp] at hm
    cases hq : (m.record i).privateMembers.get? x <;> simp [hq] at hm

/-- A slot is read alike in both machines. What is refused to code that does not mention the secrets
of its module is never a difference. -/
theorem readSlot_alike {code owner : Option ModulePath} {vis : Visibility} {s s' : Slot}
    (hc : D.Allows code x)
    (hs : s = s' ∨ ∃ path, owner = some path ∧ vis = .isPrivate ∧ D.Secret path x) :
    (∃ v, s = .value v ∧ s' = .value v ∧ readSlot code owner vis x s = pure v ∧
        readSlot code owner vis x s' = pure v ∧
        ∀ path, owner = some path → vis = .isPrivate → ¬ D.Secret path x) ∨
      ∃ e, readSlot code owner vis x s = throw e ∧ readSlot code owner vis x s' = throw e := by
  have hrefused : ∀ {path}, vis = .isPrivate → D.Secret path x →
      canAccess code path vis = false := by
    rintro path rfl hx
    have hne : code ≠ some path := fun he => hc path he hx
    simp [canAccess, hne]
  rcases hs with rfl | ⟨path, rfl, hp, hx⟩
  · rcases readSlot_cases code owner vis x s with ⟨v, hv, hs, ha⟩ | ⟨e, he⟩
    · refine .inl ⟨v, hs, hs, hv, hv, fun path ho hp hx => ?_⟩
      have hno := hrefused hp hx
      rw [ha path ho] at hno
      cases hno
    · exact .inr ⟨e, he, he⟩
  · have hno := hrefused hp hx
    exact .inr ⟨_, readSlot_of_refused hno x s, readSlot_of_refused hno x s'⟩

/-- A name is resolved alike: to the same valid value, found at the same place and no secret of the
module it may be a member of, or to the same failure. -/
theorem resolve_alike (hs : D.Sound m) (ha : D.Alike m n) (hc : D.Allows c.module x) :
    (∃ r v, resolve c x m = .ok (r, v) m ∧ resolve c x n = .ok (r, v) n ∧ D.Valid m v ∧
        m.lookup c.scope x = some r ∧ ∀ i, r.owner = some i → ¬ D.Secret (m.record i).path x) ∨
      ∃ e, resolve c x m = .error e m ∧ resolve c x n = .error e n := by
  have hl := ha.lookup c.scope x
  generalize hm : m.lookup c.scope x = found, hn : n.lookup c.scope x = found' at hl
  cases hl with
  | none => exact .inr ⟨_, resolve_of_none hm, resolve_of_none hn⟩
  | @some r r' hr =>
    obtain ⟨frame, owner, visibility, hslot⟩ := hr
    have howner : (r'.owner.map fun id => (n.record id).path) =
        r.owner.map fun id => (m.record id).path := by
      rw [← owner]
      cases r.owner with
      | none => rfl
      | some i => exact congrArg some (ha.record i).path.symm
    rw [resolve_of_some hm, resolve_of_some hn, howner, ← visibility]
    have hslots : r.slot = r'.slot ∨ ∃ path, (r.owner.map fun id => (m.record id).path) = some path ∧
        r.visibility = .isPrivate ∧ D.Secret path x := by
      rcases hslot with he | ⟨i, hi, hp, hx⟩
      · exact .inl he
      · rw [hi]
        exact .inr ⟨_, rfl, hp, hx⟩
    rcases readSlot_alike hc hslots with ⟨v, hv, hv', he, he', hx⟩ | ⟨e, he, he'⟩
    · have hrr : r = r' := by
        obtain ⟨_, _, _, _⟩ := r
        obtain ⟨_, _, _, _⟩ := r'
        simp_all
      subst hrr
      have hsecret : ∀ i, r.owner = some i → ¬ D.Secret (m.record i).path x := by
        intro i hi
        cases hp : r.visibility with
        | isPrivate =>
          refine hx _ ?_ hp
          rw [hi]
          rfl
        | isPublic =>
          obtain ⟨-, hin⟩ := Machine.lookup_eq_some hm
          obtain ⟨-, ⟨j, hj, -, hmember⟩ | ⟨hj, -⟩⟩ := Machine.lookupIn_eq_some hin
          · rw [hi] at hj
            cases hj
            rw [hp] at hmember
            exact hs.not_secret_of_public hmember
          · rw [hi] at hj
            cases hj
      refine .inl ⟨r, v, ?_, ?_, hs.valid_of_lookup hm hv hsecret, rfl, hsecret⟩
      · rw [he]
        rfl
      · rw [he']
        rfl
    · refine .inr ⟨e, ?_, ?_⟩
      · rw [he]
        rfl
      · rw [he']
        rfl

theorem follow_alike (hs : D.Sound m) (ha : D.Alike m n) {names : List Ident}
    (hc : ∀ x ∈ names, D.Allows c.module x) (walked : Text) {v : Value} (hv : D.Valid m v) :
    (∃ u, follow c walked v names m = .ok u m ∧ follow c walked v names n = .ok u n ∧
        D.Valid m u) ∨
      ∃ e, follow c walked v names m = .error e m ∧ follow c walked v names n = .error e n := by
  induction names generalizing walked v with
  | nil => exact .inl ⟨v, rfl, rfl, hv⟩
  | cons x rest ih =>
    cases v with
    | module i path =>
      obtain ⟨-, -, -, hpath⟩ : (D.like m).module i path i path := by
        cases hv with
        | plain h => cases h
        | module h => exact h
      have hm := (ha.record i).member? x
      generalize hmember : (m.record i).member? x = p, hmember' : (n.record i).member? x = q at hm
      cases hm with
      | none => exact .inr ⟨_, follow_of_none walked path rest hmember,
          follow_of_none walked path rest hmember'⟩
      | @some p q hpq =>
        obtain ⟨s, vis⟩ := p
        obtain ⟨s', vis'⟩ := q
        obtain ⟨hvis, hslot⟩ := hpq
        dsimp only at hvis hslot
        subst hvis
        rw [hpath] at hslot
        rw [follow_of_some walked path rest hmember, follow_of_some walked path rest hmember']
        have hslots : s = s' ∨ ∃ p, some path = some p ∧ vis = .isPrivate ∧ D.Secret p x := by
          rcases hslot with he | ⟨hp, hx⟩
          · exact .inl he
          · exact .inr ⟨path, rfl, hp, hx⟩
        rcases readSlot_alike (hc x (.head _)) hslots with ⟨u, hu, hu', he, he', hx⟩ | ⟨e, he, he'⟩
        · have hsecret : ¬ D.Secret (m.record i).path x := by
            cases vis with
            | isPrivate =>
              rw [hpath]
              exact hx path rfl rfl
            | isPublic => exact hs.not_secret_of_public hmember
          rw [hu] at hmember
          have hvalid := hs.valid_of_member hmember hsecret
          rw [he, he']
          exact ih (fun y hy => hc y (.tail _ hy)) (walked ++ "." ++ x) hvalid
        · rw [he, he']
          exact .inr ⟨e, rfl, rfl⟩
    | _ => exact .inr ⟨_, rfl, rfl⟩

theorem dotted_alike (hs : D.Sound m) (ha : D.Alike m n) {names : List Ident}
    (hc : ∀ x ∈ names, D.Allows c.module x) :
    (∃ u, dotted c names m = .ok u m ∧ dotted c names n = .ok u n ∧ D.Valid m u) ∨
      ∃ e, dotted c names m = .error e m ∧ dotted c names n = .error e n := by
  cases names with
  | nil => exact .inl ⟨.unit, rfl, rfl, .plain rfl⟩
  | cons x rest =>
    have hdotted : ∀ (k : Machine), dotted c (x :: rest) k =
        (resolve c x >>= fun r => follow c x r.2 rest) k := fun _ => rfl
    rw [hdotted m, hdotted n]
    rcases resolve_alike hs ha (hc x (.head _)) with ⟨r, v, he, he', hv, -⟩ | ⟨e, he, he'⟩
    · rw [bind_of_ok he, bind_of_ok he']
      exact follow_alike hs ha (fun y hy => hc y (.tail _ hy)) x hv
    · exact .inr ⟨e, bind_of_error he, bind_of_error he'⟩

end ModuleScript.Discipline
