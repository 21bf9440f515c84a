import ModuleScript.Proofs.Scopes.Extent
import ModuleScript.Proofs.Scopes.Meaning
import ModuleScript.Proofs.Scopes.Shadowing
import ModuleScript.Proofs.Scopes.Untouched

/-!
# Imports are isolated

A file that is imported is evaluated in a frame of its own, and the import then binds the names it
asks for in the frame that it stands in. No other name changes its meaning, in this frame or in any
other, but for one way out: code of the file may give more variants to functions that it finds in the
prelude or reaches through functions of files that were there before.
-/

set_option autoImplicit false

namespace ModuleScript

open Eval Session

/-- A member that is defined is found with its new slot and the visibility it has; others as before. -/
theorem Record.member?_define (r : Record) (x n : Ident) (s : Slot) (vis : Visibility) :
    (r.define x s vis).member? n =
      if x = n then some (s, (r.visibility? x).getD vis) else r.member? n := by
  split
  · rename_i hx
    subst hx
    unfold define setMember member? visibility?
    rw [Bindings.has_eq_isSome, Bindings.has_eq_isSome]
    cases hpublic : r.publicMembers.get? x with
    | some t => simp [Bindings.get?_set]
    | none =>
      cases r.privateMembers.get? x with
      | some t => simp [Bindings.get?_set, hpublic]
      | none => cases vis <;> simp [Bindings.get?_set, hpublic]
  · rename_i hne
    unfold define setMember member?
    cases (r.visibility? x).getD vis <;> simp [Bindings.get?_set, hne]

namespace Machine

variable {R : Slot → Slot → Prop} {m m' k : Machine} {c : Context} {n x : Ident} {i : FrameId}
  {names : List Ident}

/-- The frame itself, or another frame of the same module. -/
def Shares (m : Machine) (i j : FrameId) : Prop :=
  i = j ∨ ∃ r, (m.frame i).record = some r ∧ (m.frame j).record = some r

/-- Names that are looked up in frames there were before are found as before, but for the given names
in the frame of the context. -/
structure KeepsNames (R : Slot → Slot → Prop) (c : Context) (names : List Ident) (m m' : Machine) :
    Prop where
  attached : ∀ i < m.frames.size, (m'.frame i).record = (m.frame i).record
  path : ∀ r < m.records.size, (m'.record r).path = (m.record r).path
  found : ∀ i < m.frames.size, ∀ n, (n ∈ names → ¬ m.Shares i c.scope.frame) →
    Option.Rel (Resolution.Kept R) (m.lookupIn n i) (m'.lookupIn n i)

theorem keepsNames_refl (hR : ∀ s, R s s) (c : Context) (names : List Ident) (m : Machine) :
    m.KeepsNames R c names m where
  attached _ _ := rfl
  path _ _ := rfl
  found i _ n _ := by
    cases m.lookupIn n i with
    | none => exact .none
    | some r => exact .some ⟨hR _, rfl, rfl, rfl⟩

/-! ## Binding a name -/

theorem define_attached {v : Value} {isPublic : Bool} {u : Unit}
    (hd : define c x v isPublic m = .ok u m') :
    m'.frames.size = m.frames.size ∧ m'.records.size = m.records.size ∧
      (∀ i, (m'.frame i).record = (m.frame i).record) ∧
      ∀ r, (m'.record r).path = (m.record r).path := by
  have hwritable : m.Writable (fun _ => True) c := ⟨trivial, fun _ _ => trivial, fun _ => trivial⟩
  obtain ⟨k, hk, hchanges⟩ := @define_changes (fun _ => True) _ _ _ hwritable x v trivial isPublic
  rw [hk] at hd
  cases hd
  exact ⟨hchanges.frames_size, hchanges.records_size, hchanges.attached, hchanges.path⟩

theorem lookupIn_defineMember {r : RecordId} {s : Slot} {vis : Visibility}
    (hn : x = n → (m.frame i).record ≠ some r) :
    (m.defineMember r x s vis).lookupIn n i = m.lookupIn n i := by
  have hmember : ∀ q, (m.frame i).record = some q →
      ((m.defineMember r x s vis).record q).member? n = (m.record q).member? n := by
    intro q hq
    unfold defineMember
    rw [record_setRecord]
    split
    · rename_i hrq
      obtain ⟨rfl, -⟩ := hrq
      rw [Record.member?_define, if_neg fun hx => hn hx hq]
    · rfl
  have hframe : (m.defineMember r x s vis).frame i = m.frame i := rfl
  unfold lookupIn
  dsimp only
  rw [hframe]
  cases hq : (m.frame i).record with
  | none => rfl
  | some q => rw [Option.bind_some, Option.bind_some, hmember q hq]

theorem lookupIn_setSlot {j : FrameId} {s : Slot} (hn : x = n → i ≠ j) :
    (m.setSlot j x s).lookupIn n i = m.lookupIn n i := by
  unfold lookupIn setSlot
  dsimp only
  rw [frame_modify_eq]
  split
  · rename_i hown
    have hne : x ≠ n := fun hx => hn hx hown.1.symm
    rw [Bindings.get?_set, if_neg hne]
    rfl
  · rfl

theorem lookupIn_define {v : Value} {isPublic : Bool} {u : Unit}
    (hd : define c x v isPublic m = .ok u m') (hn : x = n → ¬ m.Shares i c.scope.frame) :
    m'.lookupIn n i = m.lookupIn n i := by
  unfold define at hd
  cases hr : (m.frame c.scope.frame).record with
  | some r =>
    cases hd
    simp only [hr]
    exact lookupIn_defineMember fun hx hi => hn hx (.inr ⟨r, hi, hr⟩)
  | none =>
    have hslot : (m.setSlot c.scope.frame x (.value v)).lookupIn n i = m.lookupIn n i :=
      lookupIn_setSlot fun hx hi => hn hx (.inl hi)
    cases hd
    simp only [hr]
    split
    · exact hslot
    · exact hslot

end Machine

namespace Isolation

open Machine

variable {R : Slot → Slot → Prop} {h : Host} {m m' k : Machine} {c : Context} {names : List Ident}

/-- Binding imported names changes what these names mean in the frame they are bound in. -/
theorem keepsNames_bindImports {path : Text} {e : Exports} {u : Unit}
    (hb : bindImports c path e names m = .ok u m') : m.KeepsNames Eq c names m' := by
  have hrefl : ∀ o : Option Resolution, Option.Rel (Resolution.Kept Eq) o o := fun o => by
    cases o with
    | none => exact .none
    | some r => exact .some ⟨rfl, rfl, rfl, rfl⟩
  have hall : m'.frames.size = m.frames.size ∧ (∀ i, (m'.frame i).record = (m.frame i).record) ∧
      (∀ r, (m'.record r).path = (m.record r).path) ∧
      ∀ i n, (n ∈ names → ¬ m.Shares i c.scope.frame) → m'.lookupIn n i = m.lookupIn n i := by
    induction names generalizing m with
    | nil =>
      cases hb
      exact ⟨rfl, fun _ => rfl, fun _ => rfl, fun _ _ _ => rfl⟩
    | cons x rest ih =>
      obtain ⟨v, k, -, hd, hrest⟩ := bindImports_cons_eq_ok hb
      obtain ⟨hsize, -, hattached, hpath⟩ := define_attached hd
      obtain ⟨hsize', hattached', hpath', hnames⟩ := ih hrest
      refine ⟨hsize'.trans hsize, fun i => (hattached' i).trans (hattached i),
        fun r => (hpath' r).trans (hpath r), fun i n hn => ?_⟩
      have hshares : k.Shares i c.scope.frame ↔ m.Shares i c.scope.frame := by
        unfold Machine.Shares
        rw [hattached, hattached]
      rw [hnames i n fun hm => by rw [hshares]; exact hn (.tail _ hm),
        lookupIn_define hd fun hx => hn (hx ▸ .head _)]
  obtain ⟨-, hattached, hpath, hnames⟩ := hall
  exact ⟨fun i _ => hattached i, fun r _ => hpath r, fun i _ n hn => by
    rw [hnames i n hn]
    exact hrefl _⟩

/-- Where frames and records are kept while a file is loaded, an import keeps all names but its own. -/
theorem keepsNames_of_kept (hm : m.Ranged)
    (hf : ∀ i < m.frames.size, (m.frame i).Kept R (k.frame i))
    (hr : ∀ r < m.records.size, (m.record r).Kept R (k.record r))
    (hsize : m.frames.size ≤ k.frames.size) (hrecords : m.records.size ≤ k.records.size)
    (hc : c.scope.frame < m.frames.size) (hk : k.KeepsNames Eq c names m') :
    m.KeepsNames R c names m' := by
  have hattached : ∀ i < m.frames.size, (k.frame i).record = (m.frame i).record :=
    fun i hi => (hf i hi).record
  refine ⟨fun i hi => ?_, fun r hlt => ?_, fun i hi n hn => ?_⟩
  · rw [hk.attached i (Nat.lt_of_lt_of_le hi hsize), hattached i hi]
  · rw [hk.path r (Nat.lt_of_lt_of_le hlt hrecords), (hr r hlt).path]
  · have hshares : n ∈ names → ¬ k.Shares i c.scope.frame := by
      unfold Machine.Shares
      rw [hattached i hi, hattached _ hc]
      exact hn
    have hkept := lookupIn_kept (hf i hi) (fun r ho => hr r (hm.attached ho)) n
    have hbound := hk.found i (Nat.lt_of_lt_of_le hi hsize) n hshares
    generalize m.lookupIn n i = a, k.lookupIn n i = b, m'.lookupIn n i = d at hkept hbound
    cases hbound with
    | none => exact hkept
    | some hd =>
      rw [hd.eq]
      exact hkept

/-- The frames and records that there were are kept from before the file is loaded. -/
theorem keepsNames_of_keeps (hm : m.Ranged) (hc : c.scope.frame < m.frames.size)
    (hkept : Machine.Kept R m.frames.size m k) (hk : k.KeepsNames Eq c names m') :
    m.KeepsNames R c names m' := by
  have hnone : (m.frame m.frames.size).record = none := by
    simp [Machine.frame]
    rfl
  refine keepsNames_of_kept hm (fun i hi => hkept.frame i hi (Nat.ne_of_lt hi)) (fun r hr => ?_)
    hkept.frames_size hkept.records_size hc hk
  exact hkept.record r hr fun hi => by rw [hnone] at hi; cases hi

theorem keepsNames_of_untouched (hm : m.Ranged) (hc : c.scope.frame < m.frames.size)
    (hkept : m.Untouched k) (hk : k.KeepsNames Eq c names m') : m.KeepsNames Eq c names m' := by
  refine keepsNames_of_kept hm (fun i hi => ?_) (fun r hr => ?_) hkept.frames_size
    hkept.records_size hc hk
  · rw [hkept.frame i hi]
    exact Frame.kept_refl (fun _ => rfl) _
  · rw [hkept.record r hr]
    exact Record.kept_refl (fun _ => rfl) _

theorem meaning_kept (hm : m.Ranged) (hk : m.KeepsNames Eq c names m') {d : Context} {n : Ident}
    (hd : ∀ i ∈ d.scope.chain, i < m.frames.size)
    (hn : n ∈ names → ∀ i ∈ d.scope.chain, ¬ m.Shares i c.scope.frame) :
    meaning d n m' = meaning d n m := by
  have hlookup : Option.Rel (Resolution.Kept Eq) (m.lookup d.scope n) (m'.lookup d.scope n) :=
    lookup_kept fun i hi => hk.found i (hd i hi) n fun hmem => hn hmem i hi
  unfold meaning
  cases hl : m.lookup d.scope n with
  | none =>
    rw [hl] at hlookup
    cases hlookup' : m'.lookup d.scope n with
    | none =>
      rw [resolve_of_none hl, resolve_of_none hlookup']
      rfl
    | some r =>
      rw [hlookup'] at hlookup
      cases hlookup
  | some r =>
    rw [hl] at hlookup
    have hl' : m'.lookup d.scope n = some r := by
      generalize m'.lookup d.scope n = o at hlookup
      cases hlookup with
      | some hr => rw [hr.eq]
    have howner : (r.owner.map fun i => (m'.record i).path) = r.owner.map fun i => (m.record i).path := by
      obtain ⟨-, hin⟩ := lookup_eq_some hl
      obtain ⟨-, ⟨i, ho, hi, -⟩ | ⟨ho, -⟩⟩ := lookupIn_eq_some hin
      · rw [ho]
        exact congrArg some (hk.path i (hm.attached hi))
      · rw [ho]
        rfl
    rw [resolve_of_some hl, resolve_of_some hl', howner]
    rcases readSlot_cases d.module (r.owner.map fun i => (m.record i).path) r.visibility n r.slot with
      ⟨v, hv, -⟩ | ⟨e, he⟩
    · rw [hv]
      rfl
    · rw [he]
      rfl

/-! ## Loading a file -/

variable {relative importer : Text} {depth : Nat} {e : Exports}

theorem load_keeps (h : Host) (depth : Nat) (o : Work) (relative importer : Text) (m : Machine) :
    Machine.Kept Slot.Extends m.frames.size m
      (endOf (load h ((run h depth).below h o) relative importer m)) :=
  Scopes.endOf_kept (Simulation.load_ends (S := Scopes.extending h m.frames.size m) (w := ⟨⟩)
    ((Scopes.extending_follows h depth).below h o) relative importer
    ⟨rfl, Machine.kept_refl .refl _ m⟩ fun _ _ => trivial)

theorem load_kept {o : Work} (hl : load h ((run h depth).below h o) relative importer m = .ok e k) :
    Machine.Kept Slot.Extends m.frames.size m k := by
  have hkept := load_keeps h depth o relative importer m
  rw [hl] at hkept
  exact hkept

/-- To load a file leaves untouched all that there was, if no function from before is given another
variant. -/
theorem load_untouched (h : Host) (depth : Nat) (o : Work) (relative importer : Text)
    (m : Machine) :
    m.Untouched
      (endOf (load h ((Conduct.checked h m.Inward depth).below h o) relative importer m)) := by
  let S := (Conduct.untouched m).simulation (Conduct.untouched_files m h)
  have hall : S.Follows (Conduct.checked h m.Inward depth) (Conduct.checked h m.Inward depth) :=
    Conduct.untouched_follows m h depth
  have hload := Simulation.load_ends (S := S) (w := ⟨⟩) (hall.below h o) relative importer
    ⟨rfl, Machine.untouched_refl m⟩ fun _ _ => trivial
  obtain ⟨_, -, -, hkept⟩ := hload.machines
  exact hkept

/-! ## Imports -/

/-- If the import succeeds, all names but those it asks for keep their meaning, functions with more
variants apart; and all keep it if no older function is given a variant meanwhile. -/
def IsolatesImports (h : Host) (t : Task) (m : Machine) : Prop :=
  ∀ c l names path, t = .eval c (.imports l names path) → ∀ depth v m', run h depth t m = .ok v m' →
    m.KeepsNames Slot.Extends c names m' ∧
      (Throughout h depth m.Inward (fun self => self t) m → m.KeepsNames Eq c names m' ∧
        ∀ d n, (∀ i ∈ d.scope.chain, i < m.frames.size) →
          (n ∈ names → ∀ i ∈ d.scope.chain, ¬ m.Shares i c.scope.frame) →
          meaning d n m' = meaning d n m)

theorem imports_eq_ok {self : Step} {path : Text} {v : Value}
    (hi : imports h self c names path m = .ok v m') :
    ∃ e k u, load h self path c.site.source m = .ok e k ∧
      bindImports c path e names k = .ok u m' := by
  obtain ⟨e, k, hload, hrest⟩ := bind_eq_ok hi
  obtain ⟨u, k', hbind, hpure⟩ := bind_eq_ok hrest
  cases hpure
  exact ⟨e, k, u, hload, hbind⟩

theorem isolatesImports (hm : m.Ranged) {t : Task}
    (ht : ∀ c s, t = .eval c s → c.scope.frame < m.frames.size) : IsolatesImports h t m := by
  rintro c l names path rfl depth v m' he
  have hc := ht c _ rfl
  cases depth with
  | zero => cases he
  | succ depth =>
    constructor
    · obtain ⟨e, k, u, hload, hbind⟩ := imports_eq_ok (located_eq_ok he)
      exact keepsNames_of_keeps hm hc (load_kept hload) (keepsNames_bindImports hbind)
    · intro hin
      have hrun : Conduct.checked h m.Inward (depth + 1) (.eval c (.imports l names path)) m =
          run h (depth + 1) (.eval c (.imports l names path)) m := hin _
      rw [← hrun, Conduct.checked, watched_of_check (Machine.inward_of_not_variation rfl m)] at he
      obtain ⟨e, k, u, hload, hbind⟩ := imports_eq_ok (located_eq_ok he)
      have hkept := load_untouched h depth (Task.eval c (.imports l names path)).work path
        c.site.source m
      rw [hload] at hkept
      have hnames := keepsNames_of_untouched hm hc hkept (keepsNames_bindImports hbind)
      exact ⟨hnames, fun d n hd hn => meaning_kept hm hnames hd hn⟩

/-- In every session, whatever file is imported wherever: no other name changes its meaning than those
that the import asks for, in the frame where it stands, but for functions that get more variants; and
these change only if code that runs meanwhile gives variants to a function that was there before. -/
theorem imports_isolated (h : Host) (input : Text) (history : List Command) (command : Command) :
    Throughout h h.depth (IsolatesImports h) (command.perform h) (after h input history).machine := by
  have hserving := Conduct.ranged_serving h (history ++ [command])
  obtain ⟨-, w, -, hm⟩ := Conduct.after_fits hserving
    (⟨rfl, Conduct.ranged_blank input⟩ : Conduct.ranged.Fits _ _)
    fun c hc => List.mem_append_left [command] hc
  refine Conduct.throughout_perform hserving ?_ hm (by simp) h.depth
  rintro _ k t ⟨rfl, hk⟩ ht
  refine isolatesImports hk ?_
  rintro c s rfl
  exact ht.scope _ (.head _)

/-- The file gives the prelude's `sum` one more variant. -/
def extendingHost : Host :=
  hostWith [(["lib.rs"], "var sum = fn(a, b) => a + b\npub let x = 1\n")]

/-- How many variants the function has that a name means. -/
def variantsOf : Except Failure Value → Nat
  | .ok (.closure f) => f.variants.length
  | _ => 0

/-- Importing `x` from the file changes what `sum` means for whoever imports it. -/
theorem import_changes_sum :
    ∃ v m, (Command.source "<input>" "imp x from \"lib.rs\"").perform extendingHost
        extendingHost.runner (start extendingHost "").machine = .ok v m ∧
      meaning (top ⟨"<input>", globalFrame, 1⟩ [preludeFrame, builtinsFrame]) "sum" m ≠
        meaning (top ⟨"<input>", globalFrame, 1⟩ [preludeFrame, builtinsFrame]) "sum"
          (start extendingHost "").machine := by
  have hbefore : variantsOf (meaning (top ⟨"<input>", globalFrame, 1⟩ [preludeFrame, builtinsFrame])
      "sum" (start extendingHost "").machine) = 1 := by decide +kernel
  have hok : endsWith (fun _ => true) ((Command.source "<input>" "imp x from \"lib.rs\"").perform
      extendingHost extendingHost.runner (start extendingHost "").machine) = true := by
    decide +kernel
  have hafter : variantsOf (meaning (top ⟨"<input>", globalFrame, 1⟩ [preludeFrame, builtinsFrame])
      "sum" (endOf ((Command.source "<input>" "imp x from \"lib.rs\"").perform extendingHost
        extendingHost.runner (start extendingHost "").machine))) = 2 := by decide +kernel
  obtain ⟨v, m, he, -⟩ := endsWith_eq_true hok
  rw [he] at hafter
  refine ⟨v, m, he, fun hsame => ?_⟩
  have hafter : variantsOf (meaning (top ⟨"<input>", globalFrame, 1⟩ [preludeFrame, builtinsFrame])
      "sum" m) = 2 := hafter
  rw [hsame, hbefore] at hafter
  cases hafter

end Isolation

end ModuleScript
