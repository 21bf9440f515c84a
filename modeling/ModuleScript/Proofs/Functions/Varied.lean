import ModuleScript.Proofs.Functions.Sound
import ModuleScript.Proofs.Imports.Isolated
import ModuleScript.Proofs.Invariant.Together

/-!
# Functions that get more variants

To give a function one more variant is to put a new function in the place where its name was found,
in a frame or among the members of a module. Whoever finds the name there finds the new function; the
old one stays what it was wherever else it is. The new function differs from the old one in what it
does with as many arguments as the new variant has parameters.
-/

set_option autoImplicit false

namespace ModuleScript

open Eval Session

theorem Record.visibility?_of_member? {r : Record} {n : Ident} {s : Slot} {vis : Visibility}
    (h : r.member? n = some (s, vis)) : r.visibility? n = some vis := by
  unfold member? at h
  unfold visibility?
  rw [Bindings.has_eq_isSome, Bindings.has_eq_isSome]
  cases hpublic : r.publicMembers.get? n with
  | some t =>
    rw [hpublic] at h
    cases h
    rfl
  | none =>
    rw [hpublic] at h
    obtain ⟨t, ht, he⟩ := Option.map_eq_some_iff.mp h
    cases he
    rw [ht]
    rfl

/-- Two names, or one from two scopes, were found as the same member or in the same frame. -/
def Resolution.SamePlace (q r : Resolution) : Prop :=
  q.owner = r.owner ∧ (r.owner = none → q.frame = r.frame)

instance (q r : Resolution) : Decidable (q.SamePlace r) :=
  inferInstanceAs (Decidable (_ ∧ (_ → _)))

/-- What is found for `x` once `v` has been put in the place where `n` was found. -/
def Resolution.putting (r : Resolution) (n : Ident) (v : Value) (x : Ident) (q : Resolution) :
    Resolution :=
  if n = x ∧ q.SamePlace r then { q with slot := .value v } else q

/-- The machine after the value has been put in the place where the name was found, by code in the
context. -/
structure Machine.Put (m : Machine) (c : Context) (n : Ident) (r : Resolution) (v : Value)
    (m' : Machine) : Prop where
  bindings : ∀ i x, (m'.frame i).bindings.get? x =
    if n = x ∧ r.owner = none ∧ r.frame = i then some (.value v) else (m.frame i).bindings.get? x
  members : ∀ i x, (m'.record i).member? x =
    if n = x ∧ r.owner = some i then some (.value v, r.visibility) else (m.record i).member? x
  attached : ∀ i, (m'.frame i).record = (m.frame i).record
  exported : ∀ i x, (m'.exportsOf i).get? x =
    if n = x ∧ r.owner = none ∧ r.frame = c.site.globals ∧ c.site.exports = i ∧
        (m.exportsOf i).has n = true then some v
    else (m.exportsOf i).get? x
  loaded : m'.loaded = m.loaded

/-- The function has variants, each of which is the one for the number of its parameters, which all
differ. -/
structure Closure.WellFormed (f : Closure) : Prop where
  variants : f.variants ≠ []
  own : ∀ v ∈ f.variants, f.variant? v.arity = some v
  params : ∀ v ∈ f.variants, v.params.Nodup

/-- The function `g` is `f` with one more variant. -/
structure Closure.Adds (f : Closure) (v : Variant) (g : Closure) : Prop where
  fresh : f.variant? v.arity = none
  name : g.name = f.name
  added : g.variant? v.arity = some v
  others : ∀ arity, arity ≠ v.arity → g.variant? arity = f.variant? arity

/-- What `g` does if it is `f` with one more variant: with as many arguments as the variant has
parameters it runs the variant, and with any other number it does what `f` does, or both refuse. -/
structure Closure.Overloads (f : Closure) (v : Variant) (g : Closure) : Prop where
  adds : f.Adds v g
  added : ∀ self site args, args.length = v.arity → applyClosure self site g args =
    (Context.enter ⟨site, v.scope, v.module⟩ (callFrame f v args) >>= fun inner =>
      self.expr inner v.body)
  others : ∀ self site args, args.length ≠ v.arity → (f.variant? args.length).isSome = true →
    applyClosure self site g args = applyClosure self site f args
  refused : ∀ self site args, args.length ≠ v.arity → f.variant? args.length = none →
    ∀ k ∈ [f, g], ∃ expected, applyClosure self site k args =
      because (.arity (f.name.getD "Function") expected args.length)

/-- A statement that adds a variant fails and changes nothing, or puts a function that is new in the
place where the name was found, and nowhere else. -/
def AddsVariant (h : Host) (t : Task) (m : Machine) : Prop :=
  ∀ c l n l' ps body, t = .eval c (.variation l n l' ps body) → ∀ depth,
    (∃ e, run h depth t m = .error e m) ∨
      ∃ r f g m', run h depth t m = .ok (.closure g) m' ∧
        m.lookup c.scope n = some r ∧ r.slot = .value (.closure f) ∧
        m.Holds (Value.Carries fun k => k.identity ≠ g.identity) ∧
        f.Overloads (variantHere c ps body) g ∧ m.Put c n r (.closure g) m' ∧
        ∀ s x, m'.lookup s x = (m.lookup s x).map (r.putting n (.closure g) x)

namespace Varying

variable {m m' : Machine} {c : Context} {n x : Ident} {r q : Resolution} {v : Value} {i : FrameId}
  {f g : Closure} {w u : Variant} {self : Step} {site : Site} {args : List Value}

/-! ## The place of a name -/

theorem frame_lt_size (hr : m.lookupIn n r.frame = some r) (ho : r.owner = none) :
    r.frame < m.frames.size := by
  obtain ⟨-, ⟨i, hi, -⟩ | ⟨-, -, hb⟩⟩ := Machine.lookupIn_eq_some hr
  · rw [ho] at hi
    cases hi
  · refine Nat.lt_of_not_le fun hle => ?_
    unfold Machine.frame at hb
    rw [Array.getElem?_eq_none hle] at hb
    cases hb

theorem record_lt_size {i : RecordId} (hr : m.lookupIn n r.frame = some r) (ho : r.owner = some i) :
    i < m.records.size := by
  obtain ⟨-, ⟨j, hj, -, hmember⟩ | ⟨hn, -⟩⟩ := Machine.lookupIn_eq_some hr
  · rw [ho] at hj
    cases hj
    refine Nat.lt_of_not_le fun hle => ?_
    unfold Machine.record at hmember
    rw [Array.getElem?_eq_none hle] at hmember
    cases hmember
  · rw [ho] at hn
    cases hn

theorem put_member {i : RecordId} (hr : m.lookupIn n r.frame = some r) (ho : r.owner = some i) :
    m.Put c n r v (m.defineMember i n (.value v) .isPrivate) := by
  have hvisibility : ((m.record i).visibility? n).getD .isPrivate = r.visibility := by
    obtain ⟨-, ⟨j, hj, -, hmember⟩ | ⟨hn, -⟩⟩ := Machine.lookupIn_eq_some hr
    · rw [ho] at hj
      cases hj
      rw [Record.visibility?_of_member? hmember, Option.getD_some]
    · rw [ho] at hn
      cases hn
  have hnone : r.owner ≠ none := by rw [ho]; nofun
  refine ⟨fun j x => (if_neg fun h => hnone h.2.1).symm, fun j x => ?_, fun _ => rfl,
    fun j x => (if_neg fun h => hnone h.2.1).symm, rfl⟩
  rw [Machine.defineMember, Machine.record_setRecord]
  by_cases hij : i = j
  · subst hij
    rw [if_pos ⟨rfl, record_lt_size hr ho⟩, Record.member?_define, hvisibility]
    by_cases hx : n = x
    · rw [if_pos hx, if_pos ⟨hx, ho⟩]
    · rw [if_neg hx, if_neg fun h => hx h.1]
  · rw [if_neg fun h => hij h.1, if_neg fun h => hij (Option.some.inj (ho.symm.trans h.2))]

theorem put_slot (hr : m.lookupIn n r.frame = some r) (ho : r.owner = none) :
    m.Put c n r v
      (if r.frame = c.site.globals ∧
          ((m.setSlot r.frame n (.value v)).exportsOf c.site.exports).has n = true then
        (m.setSlot r.frame n (.value v)).setExport c.site.exports n v
      else m.setSlot r.frame n (.value v)) := by
  have hexports : ∀ i, (m.setSlot r.frame n (.value v)).exportsOf i = m.exportsOf i := fun _ => rfl
  have hbindings : ∀ i x, ((m.setSlot r.frame n (.value v)).frame i).bindings.get? x =
      if n = x ∧ r.owner = none ∧ r.frame = i then some (.value v)
      else (m.frame i).bindings.get? x := by
    intro i x
    rw [Machine.frame_setSlot m (frame_lt_size hr ho)]
    by_cases hi : r.frame = i
    · subst hi
      rw [if_pos rfl, Bindings.get?_set]
      by_cases hx : n = x
      · rw [if_pos hx, if_pos ⟨hx, ho, rfl⟩]
      · rw [if_neg hx, if_neg fun h => hx h.1]
    · rw [if_neg hi, if_neg fun h => hi h.2.2]
  have hmembers : ∀ i x, ((m.setSlot r.frame n (.value v)).record i).member? x =
      if n = x ∧ r.owner = some i then some (.value v, r.visibility)
      else (m.record i).member? x := by
    intro i x
    rw [if_neg fun h => by rw [ho] at h; cases h.2]
    rfl
  have hattached : ∀ i, ((m.setSlot r.frame n (.value v)).frame i).record = (m.frame i).record := by
    intro i
    rw [Machine.frame_setSlot m (frame_lt_size hr ho)]
    split
    · rename_i hi
      rw [← hi]
    · rfl
  rw [hexports]
  split
  · rename_i hown
    refine ⟨hbindings, hmembers, hattached, fun i x => ?_, rfl⟩
    have hsize : c.site.exports < m.exports.size := by
      rw [Bindings.has_eq_isSome] at hown
      obtain ⟨u, hu⟩ := Option.isSome_iff_exists.mp hown.2
      exact Machine.lt_exports_size hu
    have hset : ((m.setSlot r.frame n (.value v)).setExport c.site.exports n v).exportsOf i =
        if c.site.exports = i ∧ c.site.exports < m.exports.size then (m.exportsOf i).set n v
        else m.exportsOf i :=
      Machine.exportsOf_modify_eq (m.setSlot r.frame n (.value v)) _ _ _
    rw [hset]
    by_cases hi : c.site.exports = i
    · subst hi
      rw [if_pos ⟨rfl, hsize⟩, Bindings.get?_set]
      by_cases hx : n = x
      · rw [if_pos hx, if_pos ⟨hx, ho, hown.1, rfl, hown.2⟩]
      · rw [if_neg hx, if_neg fun h => hx h.1]
    · rw [if_neg fun h => hi h.1, if_neg fun h => hi h.2.2.2.1]
  · rename_i hown
    refine ⟨hbindings, hmembers, hattached, fun i x => ?_, rfl⟩
    rw [hexports, if_neg]
    rintro ⟨-, -, hframe, rfl, hhas⟩
    exact hown ⟨hframe, hhas⟩

theorem put_of_replace {k : Unit} (hr : m.lookupIn n r.frame = some r)
    (he : replace c r n v m = .ok k m') : m.Put c n r v m' := by
  unfold replace at he
  cases ho : r.owner with
  | some i =>
    rw [ho] at he
    cases he
    exact put_member hr ho
  | none =>
    rw [ho] at he
    cases he
    exact put_slot hr ho

/-- Where a value has been put in a place, it is found by whoever found that place, and all else is
found as before. -/
theorem lookupIn_of_put (hr : m.lookupIn n r.frame = some r) (hput : m.Put c n r v m') :
    m'.lookupIn x i = (m.lookupIn x i).map (r.putting n v x) := by
  have hplain : ((m'.frame i).bindings.get? x).map (⟨·, i, none, .isPublic⟩) =
      (((m.frame i).bindings.get? x).map (⟨·, i, none, .isPublic⟩)).map (r.putting n v x) := by
    rw [hput.bindings]
    by_cases hplace : n = x ∧ r.owner = none ∧ r.frame = i
    · obtain ⟨rfl, ho, rfl⟩ := hplace
      obtain ⟨-, ⟨j, hj, -⟩ | ⟨-, -, hb⟩⟩ := Machine.lookupIn_eq_some hr
      · rw [ho] at hj
        cases hj
      · rw [if_pos ⟨rfl, ho, rfl⟩, hb, Option.map_some, Option.map_some, Option.map_some,
          Resolution.putting, if_pos ⟨rfl, ho.symm, fun _ => rfl⟩]
    · rw [if_neg hplace, Option.map_map]
      refine congrArg (Option.map · _) (funext fun s => ?_)
      rw [Function.comp_apply, Resolution.putting,
        if_neg fun h => hplace ⟨h.1, h.2.1.symm, (h.2.2 h.2.1.symm).symm⟩]
  unfold Machine.lookupIn
  dsimp only
  rw [hput.attached]
  cases ho : (m.frame i).record with
  | none => exact hplain
  | some j =>
    rw [Option.bind_some, Option.bind_some, hput.members]
    by_cases hplace : n = x ∧ r.owner = some j
    · obtain ⟨rfl, hj⟩ := hplace
      obtain ⟨-, ⟨k, hk, -, hmember⟩ | ⟨hnone, -⟩⟩ := Machine.lookupIn_eq_some hr
      · rw [hj] at hk
        cases hk
        have hsame : Resolution.SamePlace ⟨r.slot, i, some j, r.visibility⟩ r :=
          ⟨hj.symm, fun hn => by rw [hj] at hn; cases hn⟩
        rw [if_pos ⟨rfl, hj⟩, hmember]
        simp [Resolution.putting, hsame]
      · rw [hj] at hnone
        cases hnone
    · rw [if_neg hplace]
      cases (m.record j).member? x with
      | none => exact hplain
      | some p =>
        have hother : ¬ (n = x ∧ Resolution.SamePlace ⟨p.1, i, some j, p.2⟩ r) :=
          fun h => hplace ⟨h.1, h.2.1.symm⟩
        simp [Resolution.putting, hother]

theorem lookup_of_put (hr : m.lookupIn n r.frame = some r) (hput : m.Put c n r v m') (s : Scope)
    (x : Ident) : m'.lookup s x = (m.lookup s x).map (r.putting n v x) := by
  unfold Machine.lookup
  induction s.chain with
  | nil => rfl
  | cons i rest ih =>
    rw [List.findSome?_cons, List.findSome?_cons, lookupIn_of_put hr hput]
    cases m.lookupIn x i with
    | none => exact ih
    | some q => rfl

/-! ## The new function -/

theorem adds_append (hnone : f.variant? w.arity = none) (identity : Nat) :
    f.Adds w ⟨identity, f.name, f.variants ++ [w]⟩ where
  fresh := hnone
  name := rfl
  added := by
    unfold Closure.variant? at hnone ⊢
    rw [List.find?_append, hnone]
    simp
  others arity hne := by
    unfold Closure.variant?
    rw [List.find?_append]
    simp [Ne.symm hne]

/-- With as many arguments as the new variant has parameters, its body is evaluated. -/
theorem applyClosure_added (h : f.Adds w g) (ha : args.length = w.arity) :
    applyClosure self site g args =
      (Context.enter ⟨site, w.scope, w.module⟩ (callFrame f w args) >>= fun inner =>
        self.expr inner w.body) := by
  unfold applyClosure callFrame
  rw [ha, h.added, h.name]

/-- With any other number of arguments the variant is that of the old function, if there is one. -/
theorem applyClosure_of_some (h : f.Adds w g) (ha : args.length ≠ w.arity)
    (hu : f.variant? args.length = some u) :
    applyClosure self site g args = applyClosure self site f args := by
  unfold applyClosure callFrame
  rw [h.others _ ha, hu, h.name]

theorem applyClosure_of_none (hf : f.variant? args.length = none) : ∃ expected,
    applyClosure self site f args =
      because (.arity (f.name.getD "Function") expected args.length) := by
  unfold applyClosure
  rw [hf]
  exact ⟨_, rfl⟩

theorem overloads_of_adds (h : f.Adds w g) : f.Overloads w g where
  adds := h
  added _ _ _ ha := applyClosure_added h ha
  others _ _ _ ha hu :=
    let ⟨_, hu⟩ := Option.isSome_iff_exists.mp hu
    applyClosure_of_some h ha hu
  refused self site args ha hnone := by
    have hg : g.variant? args.length = none := by rw [h.others _ ha, hnone]
    have hrefused : ∃ expected, applyClosure self site g args =
        because (.arity (g.name.getD "Function") expected args.length) := applyClosure_of_none hg
    rw [h.name] at hrefused
    exact List.forall_mem_cons.mpr
      ⟨applyClosure_of_none hnone, List.forall_mem_singleton.mpr hrefused⟩

theorem wellFormed_of_sound {T : Location → Prop} (h : f.Sound T) : f.WellFormed :=
  ⟨h.variants, fun _ => h.variant?_of_mem, h.params⟩

/-! ## The statement that adds a variant -/

/-- A variant is added to the function that the name stands for, or nothing changes. -/
theorem vary_cases (c : Context) (n : Ident) (w : Variant) (m : Machine) :
    (∃ e, vary c n w m = .error e m) ∨
      ∃ r f m', m.lookup c.scope n = some r ∧ r.slot = .value (.closure f) ∧
        f.Adds w ⟨m.functions, f.name, f.variants ++ [w]⟩ ∧
        m.Put c n r (.closure ⟨m.functions, f.name, f.variants ++ [w]⟩) m' ∧
        vary c n w m = .ok (.closure ⟨m.functions, f.name, f.variants ++ [w]⟩) m' := by
  unfold vary
  rcases reads_resolve c n m with ⟨⟨r, existing⟩, hr⟩ | ⟨e, he⟩
  · rw [bind_of_ok hr]
    cases existing with
    | closure f =>
      dsimp only
      split
      · exact .inl ⟨_, rfl⟩
      · rename_i hnone
        obtain ⟨-, hl, hs, -⟩ := resolve_eq_ok hr
        obtain ⟨-, hin⟩ := Machine.lookup_eq_some hl
        have hnew : newClosure f.name (f.variants ++ [w]) m =
          .ok (.closure ⟨m.functions, f.name, f.variants ++ [w]⟩)
            { m with functions := m.functions + 1 } := rfl
        obtain ⟨m', hreplace⟩ : ∃ m', replace c r n
            (.closure ⟨m.functions, f.name, f.variants ++ [w]⟩)
            { m with functions := m.functions + 1 } = .ok ⟨⟩ m' := ⟨_, rfl⟩
        have hput := put_of_replace (m := { m with functions := m.functions + 1 }) hin hreplace
        refine .inr ⟨r, f, m', hl, hs, adds_append (Option.not_isSome_iff_eq_none.mp hnone) _,
          ⟨hput.bindings, hput.members, hput.attached, hput.exported, hput.loaded⟩, ?_⟩
        rw [bind_of_ok hnew, bind_of_ok hreplace]
        rfl
    | _ => exact .inl ⟨_, rfl⟩
  · exact .inl ⟨e, bind_of_error he⟩

theorem adds_variant (h : Host) (t : Task) (hm : m.Ranged) : AddsVariant h t m := by
  rintro c l n l' ps body rfl depth
  cases depth with
  | zero => exact .inl ⟨_, rfl⟩
  | succ depth =>
    rcases vary_cases c n (variantHere c ps body) m with ⟨e, he⟩ | ⟨r, f, m', hl, hs, hadds, hput, hok⟩
    · cases hrun : run h (depth + 1) (.eval c (.variation l n l' ps body)) m with
      | ok v k => exact absurd (he.symm.trans (located_eq_ok hrun)) nofun
      | error e' k =>
        obtain ⟨_, hx⟩ := located_eq_error hrun
        cases he.symm.trans hx
        exact .inl ⟨e', rfl⟩
    · have hnew : m.Holds (Value.Carries fun k => k.identity ≠ m.functions) :=
        hm.holds.mono fun _ hv => hv.mono fun _ hk => Nat.ne_of_lt hk.identity
      obtain ⟨-, hin⟩ := Machine.lookup_eq_some hl
      exact .inr ⟨r, f, _, m', located_of_ok h l hok, hl, hs, hnew, overloads_of_adds hadds, hput,
        lookup_of_put hin hput⟩

variable (h : Host) (input : Text) (history : List Command) (command : Command)

theorem serving : (Conduct.sound fun _ => True).Serving h (history ++ [command]) :=
  Conduct.sound_serving fun _ _ _ _ hr s hs =>
    ⟨none, (sound_of_readProgram hr s hs).mono fun _ _ => trivial⟩

theorem after_sound :
    (after h input history).machine.Holds (Value.Carries (Closure.Sound fun _ => True)) := by
  have hblank : (Conduct.sound fun _ => True).Fits ⟨⟩ (blank input) :=
    blank_holds (fun _ => Value.carries_plain rfl) input
  obtain ⟨-, _, -, hm⟩ := Conduct.after_fits (serving h history (.source [] [])) hblank fun c hc =>
    List.mem_append_left _ hc
  exact hm

theorem carries_wellFormed {T : Location → Prop} (hv : v.Carries (Closure.Sound T)) :
    v.Carries Closure.WellFormed :=
  hv.mono fun _ => wellFormed_of_sound

/-- Whenever a task begins, all functions on the machine and among the arguments are well formed. -/
theorem begins_wellFormed :
    Throughout h h.depth (fun t m => m.Holds (Value.Carries Closure.WellFormed) ∧
      ∀ site u args, t = .apply site u args → ∀ v ∈ u :: args, v.Carries Closure.WellFormed)
      (command.perform h) (after h input history).machine := by
  refine Conduct.throughout_perform (C := Conduct.sound _) (w := ⟨⟩) (serving h history command)
    (fun w k t hk ht => ?_) (after_sound h input history) (by simp) h.depth
  refine ⟨Machine.Holds.mono hk fun _ => carries_wellFormed, ?_⟩
  rintro site u args rfl
  obtain ⟨-, hu, hargs⟩ := ht
  exact List.forall_mem_cons.mpr ⟨carries_wellFormed hu, fun v hv => carries_wellFormed (hargs v hv)⟩

/-- In every session, all functions that there are, wherever they are bound, exported, passed or
yielded, have variants for different numbers of distinct parameters; and a statement that adds a
variant to a function changes what its name stands for, for all who find it in the same place, and
nothing else. -/
theorem overloads_conservative :
    (after h input history).machine.Holds (Value.Carries Closure.WellFormed) ∧
      (∀ v m, command.perform h h.runner (after h input history).machine = .ok v m →
        v.Carries Closure.WellFormed) ∧
      Throughout h h.depth (fun t m => m.Holds (Value.Carries Closure.WellFormed) ∧
        (∀ site u args, t = .apply site u args → ∀ v ∈ u :: args, v.Carries Closure.WellFormed) ∧
        AddsVariant h t m) (command.perform h) (after h input history).machine := by
  have hm := after_sound h input history
  have huniform := Invariant.uniform_perform h command (after h input history).machine
  refine ⟨hm.mono fun _ => carries_wellFormed, fun v k he => ?_, ?_⟩
  · obtain ⟨_, _, hv⟩ := Conduct.perform_valid (C := Conduct.sound _) (w := ⟨⟩)
      (serving h history command) hm (by simp) he
    exact carries_wellFormed hv
  · have hadds := Invariant.throughout_imp huniform (Machine.begins_ranged h input history command)
      fun t _ hk => adds_variant h t hk.1
    refine Invariant.throughout_imp huniform
      (Invariant.throughout_and huniform (begins_wellFormed h input history command) hadds) ?_
    exact fun t k hk => ⟨hk.1.1, hk.1.2, hk.2⟩

end Varying

end ModuleScript
