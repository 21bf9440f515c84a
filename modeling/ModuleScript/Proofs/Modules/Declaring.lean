import ModuleScript.Proofs.Modules.Table
import ModuleScript.Proofs.Names

/-!
# The members that a body declares

Before its first statement runs, a module has all the members that its statements declare, each in
its tier. Members stay in their tiers, so it has them from then on.
-/

set_option autoImplicit false

namespace ModuleScript

open Eval

namespace Record

variable {r r' : Record} {n : Ident} {vis : Visibility}

theorem TiersKept.trans {r'' : Record} (h : r.TiersKept r') (h' : r'.TiersKept r'') :
    r.TiersKept r'' :=
  fun vis n hn => h' vis n (h vis n hn)

/-- A name that has been declared is a member; no member is lost. -/
theorem declared_of_declare (h : r.declare n vis = .ok r') :
    (r'.members vis).has n = true ∧ r.TiersKept r' := by
  unfold declare at h
  cases hv : r.visibility? n with
  | none =>
    rw [hv] at h
    cases h
    refine ⟨?_, tiersKept_setMember r vis n .pending⟩
    cases vis <;> simp [setMember, members, Bindings.has_set]
  | some w =>
    rw [hv] at h
    dsimp only at h
    split at h
    · rename_i hw
      subst hw
      cases h
      refine ⟨?_, fun _ _ hn => hn⟩
      unfold visibility? at hv
      split at hv
      · rename_i hpublic
        cases hv
        exact hpublic
      · split at hv
        · rename_i hprivate
          cases hv
          exact hprivate
        · cases hv
    · cases h

/-- What a name in a tier means to the module, if no name is in both. -/
theorem member?_of_tiered (h : r.Tiered) (hn : (r.members vis).has n = true) :
    ∃ s, r.member? n = some (s, vis) := by
  have hboth := h n
  rw [Bindings.has_eq_isSome, Bindings.has_eq_isSome] at hboth
  unfold member?
  cases vis with
  | isPublic =>
    have hpublic : (r.publicMembers.get? n).isSome = true := by rwa [← Bindings.has_eq_isSome]
    obtain ⟨s, hs⟩ := Option.isSome_iff_exists.mp hpublic
    exact ⟨s, by rw [hs]⟩
  | isPrivate =>
    have hprivate : (r.privateMembers.get? n).isSome = true := by rwa [← Bindings.has_eq_isSome]
    obtain ⟨s, hs⟩ := Option.isSome_iff_exists.mp hprivate
    cases hp : r.publicMembers.get? n with
    | none => exact ⟨s, by rw [hs]; rfl⟩
    | some u => exact absurd ⟨by rw [hp]; rfl, hprivate⟩ hboth

end Record

namespace Machine

/-- The module has all the members that the statements declare, each in its tier. -/
def Declares (m : Machine) (i : RecordId) (body : List Stmt) : Prop :=
  ∀ n vis, (n, vis) ∈ body.filterMap declared? → ((m.record i).members vis).has n = true

variable {m m' : Machine} {i : RecordId} {body : List Stmt}

theorem Declares.later (h : m.Declares i body) (hl : (m.record i).TiersKept (m'.record i)) :
    m'.Declares i body :=
  fun n vis hn => hl vis n (h n vis hn)

/-- The names are declared one by one; those declared first stay members. -/
theorem declared_of_forM {names : List (Ident × Visibility)} {u : Unit}
    (hi : i < m.records.size)
    (h : (names.forM fun (n, v) =>
      change fun m => ((m.record i).declare n v).map (m.setRecord i)) m = .ok u m') :
    (m.record i).TiersKept (m'.record i) ∧
      ∀ n vis, (n, vis) ∈ names → ((m'.record i).members vis).has n = true := by
  induction names generalizing m with
  | nil =>
    cases h
    exact ⟨fun _ _ hn => hn, fun _ _ hn => by cases hn⟩
  | cons p rest ih =>
    obtain ⟨n, v⟩ := p
    obtain ⟨_, m₁, hfirst, hrest⟩ := bind_eq_ok h
    obtain ⟨r, hr, rfl⟩ := declare_eq_ok (change_eq_ok hfirst)
    obtain ⟨hmem, hkept⟩ := Record.declared_of_declare hr
    have hsize : i < (m.setRecord i r).records.size := by simpa [Machine.setRecord] using hi
    have hrecord : (m.setRecord i r).record i = r := by
      rw [record_setRecord, if_pos ⟨rfl, hi⟩]
    obtain ⟨hlater, hmembers⟩ := ih hsize hrest
    rw [hrecord] at hlater
    refine ⟨hkept.trans hlater, fun x vis hx => ?_⟩
    rcases List.mem_cons.mp hx with hx | hx
    · cases hx
      exact hlater v n hmem
    · exact hmembers x vis hx

theorem records_size_declareMembers {u : Unit} (h : declareMembers i body m = .ok u m') :
    m'.records.size = m.records.size := by
  unfold declareMembers at h
  generalize body.filterMap declared? = names at h
  induction names generalizing m with
  | nil =>
    cases h
    rfl
  | cons p rest ih =>
    obtain ⟨_, m₁, hfirst, hrest⟩ := bind_eq_ok h
    obtain ⟨r, -, rfl⟩ := declare_eq_ok (change_eq_ok hfirst)
    rw [ih hrest]
    simp [Machine.setRecord]

/-- After its first phase a module that there is has its members. -/
theorem declares_of_declareMembers {u : Unit} (h : declareMembers i body m = .ok u m')
    (hi : i < m'.records.size) : m'.Declares i body := by
  rw [records_size_declareMembers h] at hi
  exact (declared_of_forM hi h).2

end Machine

end ModuleScript
