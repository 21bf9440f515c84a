import ModuleScript.Proofs.Names
import ModuleScript.Proofs.Simulation.Basic

/-!
# Slots and records that correspond

Slots correspond when both are pending or both hold values that do, and module records when they have
the same path and the same members with slots that correspond. What is done alike to two such records
keeps them so, and the members found in them correspond. What is said here of declarations and of
loading holds of any relation of records or machines that the single changes keep.
-/

set_option autoImplicit false

namespace ModuleScript

open Eval

/-- Members are declared alike in records that tell of the same members. -/
theorem Record.declare_rel {R : Record → Record → Prop} {r r' : Record} {x : Ident} {v : Visibility}
    (hpath : r.path = r'.path) (hvisibility : r.visibility? x = r'.visibility? x) (h : R r r')
    (hset : R (r.setMember v x .pending) (r'.setMember v x .pending)) :
    ExceptRel R (r.declare x v) (r'.declare x v) := by
  unfold Record.declare
  rw [hvisibility, hpath]
  cases r'.visibility? x with
  | none => exact .ok hset
  | some w =>
    dsimp only
    split
    · exact .ok h
    · exact .error _

namespace Machine

variable {R : Machine → Machine → Prop} {m n : Machine} (hloading : m.loading = n.loading)
  (p : Path)

include hloading

theorem beginLoading_rel
    (hset : ∀ paths, R { m with loading := paths } { n with loading := paths }) :
    ExceptRel R (m.beginLoading p) (n.beginLoading p) := by
  unfold beginLoading
  rw [hloading]
  split
  · exact .error _
  · exact .ok (hset _)

theorem finishLoading_rel {e e' : Exports}
    (hset : ∀ paths, R { m with loading := paths, loaded := setLoaded p e m.loaded }
      { n with loading := paths, loaded := setLoaded p e' n.loaded }) :
    ExceptRel R (m.finishLoading p e) (n.finishLoading p e') := by
  unfold finishLoading
  rw [hloading]
  split
  · exact .ok (hset _)
  · exact .error _

end Machine

namespace Likeness

variable {k : Likeness}

/-- Both slots are pending, or both hold values that correspond. -/
inductive Slots (k : Likeness) : Slot → Slot → Prop where
  | pending : Slots k .pending .pending
  | value {v v' : Value} : k.Matches v v' → Slots k (.value v) (.value v')

/-- The same names bound to slots that correspond. -/
abbrev Contents (k : Likeness) : Bindings Slot → Bindings Slot → Prop :=
  Bindings.Related fun _ => k.Slots

theorem Bound.slots {b b' : Bindings Slot} (h : k.Bound b b') : k.Contents b b' := by
  refine Bindings.Related.imp h ?_
  rintro _ _ _ ⟨v, v', rfl, rfl, hv⟩
  exact .value hv

/-- Members with slots that correspond and the same visibility. -/
structure Members (k : Likeness) (p q : Slot × Visibility) : Prop where
  slot : k.Slots p.1 q.1
  visibility : p.2 = q.2

structure Records (k : Likeness) (r r' : Record) : Prop where
  path : r.path = r'.path
  publicMembers : k.Contents r.publicMembers r'.publicMembers
  privateMembers : k.Contents r.privateMembers r'.privateMembers

/-! ## What corresponds in one way corresponds in a weaker one -/

section Mono

variable {k' : Likeness} (hk : ∀ {v v'}, k.Matches v v' → k'.Matches v v')

include hk

theorem Slots.mono {s s' : Slot} (h : k.Slots s s') : k'.Slots s s' := by
  cases h with
  | pending => exact .pending
  | value hv => exact .value (hk hv)

theorem contents_mono {b b' : Bindings Slot} (h : k.Contents b b') : k'.Contents b b' :=
  Bindings.Related.imp h fun _ _ _ hs => hs.mono hk

theorem Records.mono {r r' : Record} (h : k.Records r r') : k'.Records r r' :=
  ⟨h.path, contents_mono hk h.publicMembers, contents_mono hk h.privateMembers⟩

end Mono

/-- Where all values that are bound correspond to themselves, so do the bindings. -/
theorem contents_refl {b : Bindings Slot}
    (h : ∀ {n v}, (n, .value v) ∈ b → k.Matches v v) : k.Contents b b := by
  refine Bindings.related_refl ?_
  rintro ⟨n, s⟩ hs
  cases s with
  | pending => exact .pending
  | value v => exact .value (h hs)

/-! ## Records -/

namespace Records

variable {r r' : Record} (h : k.Records r r')

include h

theorem visibility?_eq (x : Ident) : r.visibility? x = r'.visibility? x := by
  unfold Record.visibility?
  rw [h.publicMembers.has_eq, h.privateMembers.has_eq]

theorem setMember {s s' : Slot} (v : Visibility) (x : Ident) (hs : k.Slots s s') :
    k.Records (r.setMember v x s) (r'.setMember v x s') := by
  cases v with
  | isPublic => exact ⟨h.path, h.publicMembers.set hs, h.privateMembers⟩
  | isPrivate => exact ⟨h.path, h.publicMembers, h.privateMembers.set hs⟩

theorem define {s s' : Slot} (x : Ident) (hs : k.Slots s s') (v : Visibility) :
    k.Records (r.define x s v) (r'.define x s' v) := by
  unfold Record.define
  rw [h.visibility?_eq]
  exact h.setMember _ x hs

theorem declare (x : Ident) (v : Visibility) :
    ExceptRel k.Records (r.declare x v) (r'.declare x v) :=
  Record.declare_rel h.path (h.visibility?_eq x) h (h.setMember v x .pending)

theorem member? (x : Ident) : Option.Rel k.Members (r.member? x) (r'.member? x) := by
  unfold Record.member?
  have hpublic := h.publicMembers.get? x
  generalize r.publicMembers.get? x = s, r'.publicMembers.get? x = s' at hpublic
  cases hpublic with
  | some hs => exact .some ⟨hs, rfl⟩
  | none =>
    have hprivate := h.privateMembers.get? x
    generalize r.privateMembers.get? x = s, r'.privateMembers.get? x = s' at hprivate
    cases hprivate with
    | some hs => exact .some ⟨hs, rfl⟩
    | none => exact .none

end Records

/-- Slots that correspond are read alike. -/
theorem readSlot_agrees {S : Worlds} {w : S.World} (code owner : Option ModulePath)
    (vis : Visibility) (x : Ident) {s s' : Slot} (hs : k.Slots s s') :
    S.Agree w (fun _ => k.Matches) (readSlot code owner vis x s)
      (readSlot code owner vis x s') := by
  unfold readSlot
  cases owner.filter fun path => !canAccess code path vis with
  | some path => exact Worlds.agree_because _
  | none =>
    cases hs with
    | pending => exact Worlds.agree_because _
    | value hv => exact Worlds.agree_pure hv

/-- A dotted path is followed alike from values that correspond, where modules that correspond have
the same path and members that do. -/
theorem follow_agrees {S : Worlds} {like : S.World → Likeness}
    (hlater : ∀ {w w' v v'}, S.Later w w' → (like w).Matches v v' → (like w').Matches v v')
    (hmodule : ∀ {w m n i j p q}, S.Machines w m n → (like w).module i p j q →
      p = q ∧ ∀ x, Option.Rel (like w).Members ((m.record i).member? x) ((n.record j).member? x))
    {c c' : Context} (hc : c.module = c'.module) (walked : Text) (names : List Ident) {w : S.World}
    {v v' : Value} (hv : (like w).Matches v v') :
    S.Agree w (fun w' => (like w').Matches) (follow c walked v names)
      (follow c' walked v' names) := by
  induction names generalizing w walked v v' with
  | nil => exact Worlds.agree_pure hv
  | cons x rest ih =>
    cases hv with
    | @plain v hplain =>
      cases v with
      | list | closure | module => cases hplain
      | _ => exact Worlds.agree_because _
    | list _ => exact Worlds.agree_because _
    | closure _ => exact Worlds.agree_because _
    | @module i j p q hm =>
      refine Worlds.agree_get fun m n hmn => ?_
      obtain ⟨rfl, hmembers⟩ := hmodule hmn hm
      have hmember := hmembers x
      generalize (m.record i).member? x = a, (n.record j).member? x = b at hmember
      cases hmember with
      | none => exact Worlds.agree_because _ m n hmn
      | @some a b hab =>
        obtain ⟨s, vis⟩ := a
        obtain ⟨s', vis'⟩ := b
        obtain ⟨hs, hvis⟩ := hab
        dsimp only at hs hvis ⊢
        subst hvis
        rw [hc]
        have hread := readSlot_agrees (S := S) (w := w) c'.module (some p) vis x hs
        exact hread.bind (fun _ _ _ hl hu => ih (walked ++ "." ++ x) (hlater hl hu)) m n hmn

end Likeness

end ModuleScript
