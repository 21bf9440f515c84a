import ModuleScript.Proofs.Invariant.Sessions

/-!
# Checks that hold together

Checks that hold throughout a run one by one hold throughout it together. Each is watched with a
fault of its own, so that the fault with which a watched run gives up tells which check has failed;
and the run itself ends with neither of the faults.
-/

set_option autoImplicit false

namespace ModuleScript.Invariant

open Eval Condition Session

/-- Nothing is asked of machines and values. -/
def anything : Invariant where
  Sound _ := True
  Later _ _ := True
  Good _ := True
  Placed _ _ := True
  later_refl _ := trivial
  later_trans _ _ := trivial
  placed_later _ _ := trivial
  atom _ := trivial
  item _ _ := trivial
  ofItems _ := trivial
  reverse _ := trivial
  slot _ _ := trivial
  member _ _ _ := trivial
  exporting _ := ⟨fun _ => trivial, fun _ _ => trivial⟩
  pushFrame _ _ _ := ⟨⟨trivial, trivial⟩, trivial⟩
  setSlot _ _ _ := ⟨trivial, trivial⟩
  eraseSlot _ _ _ := ⟨trivial, trivial⟩
  defineMember _ _ _ _ _ := ⟨trivial, trivial⟩
  declare _ _ := ⟨trivial, trivial⟩
  register _ _ _ :=
    ⟨⟨trivial, trivial⟩, fun _ _ _ => ⟨⟨trivial, trivial⟩, trivial⟩, fun _ _ => ⟨trivial, trivial⟩⟩
  rest _ _ _ _ _ := ⟨trivial, trivial⟩

variable {α : Type} {h : Host} {check check' : Task → Machine → Prop} {depth : Nat} {m : Machine}
  {x : Step → Eval α} {quits : Fault → Prop}

/-- What the computation does depends on a step only through the tasks that it hands to it. -/
def Uniform (x : Step → Eval α) (m : Machine) : Prop :=
  ∀ (quits : Fault → Prop) (self self' : Step), anything.Follows quits self self' →
    anything.Same quits m (fun _ _ => True) (x self) (x self')

theorem uniform_perform (h : Host) (command : Command) (m : Machine) :
    Uniform (command.perform h) m :=
  fun _ _ _ hf => (perform_same hf trivial command).imp fun _ _ _ _ => trivial

/-- Fails at every task with a fault that tells something about it. -/
def flag (fault : Task → Machine → Fault) : Step := fun t m => .error (.fault (fault t m)) m

section Watched

variable {fault : Task → Machine → Fault} {alarm : Step}

/-- A run that gives up where its check fails is the same as one whose check fails less often, unless
it gives up. -/
theorem watched_follows_watched (hc : ∀ t k, check t k → check' t k)
    (hf : ∀ t k, ¬ check t k →
      quits (fault t k) ∨ ¬ check' t k ∧ alarm t k = flag fault t k) (depth : Nat) :
    anything.Follows quits (watched h check (flag fault) depth) (watched h check' alarm depth) := by
  induction depth with
  | zero => exact follows_tooDeep (fun _ => rfl) fun _ => rfl
  | succ depth ih =>
    intro k t ht hk
    by_cases hcheck : check t k
    · rw [watched_of_check hcheck, watched_of_check (hc t k hcheck)]
      exact step_follows (fun _ _ _ _ => trivial) ih k t ht hk
    · rw [watched_of_not_check hcheck]
      rcases hf t k hcheck with hq | ⟨hcheck', ha⟩
      · exact .quit hq
      · rw [watched_of_not_check hcheck', ha]
        exact .error ⟨trivial, trivial⟩

theorem watched_eq_or_quits (hx : Uniform x m) (hc : ∀ t k, check t k → check' t k)
    (hf : ∀ t k, ¬ check t k →
      quits (fault t k) ∨ ¬ check' t k ∧ alarm t k = flag fault t k) (depth : Nat) :
    x (watched h check (flag fault) depth) m = x (watched h check' alarm depth) m ∨
      ∃ f k, quits f ∧ x (watched h check (flag fault) depth) m = .error (.fault f) k := by
  rcases (hx _ _ _ (watched_follows_watched (h := h) hc hf depth) trivial).eq_or_quit with ⟨he, -⟩ | hq
  · exact .inl he
  · exact .inr hq

end Watched

/-- A check that never fails is none. -/
theorem watched_true (h : Host) (alarm : Step) (depth : Nat) :
    watched h (fun _ _ => True) alarm depth = run h depth := by
  induction depth with
  | zero => rfl
  | succ depth ih =>
    funext t m
    rw [watched_of_check trivial, ih]
    rfl

/-- A run that gives up with a fault where a check fails is the plain run, unless it gives up. -/
theorem watched_eq_run_or_quits (hx : Uniform x m) (f : Fault) :
    x (watched h check (flag fun _ _ => f) depth) m = x (run h depth) m ∨
      ∃ k, x (watched h check (flag fun _ _ => f) depth) m = .error (.fault f) k := by
  have hcases : x (watched h check (flag fun _ _ => f) depth) m =
        x (watched h (fun _ _ => True) (run h depth) depth) m ∨
      ∃ g k, g = f ∧ x (watched h check (flag fun _ _ => f) depth) m = .error (.fault g) k := by
    refine watched_eq_or_quits hx (fun _ _ _ => trivial) (fun _ _ _ => .inl ?_) depth
    rfl
  rw [watched_true] at hcases
  rcases hcases with he | ⟨_, k, rfl, he⟩
  · exact .inl he
  · exact .inr ⟨k, he⟩

/-- What a check that holds throughout implies holds throughout. -/
theorem throughout_imp (hx : Uniform x m) (hcheck : Throughout h depth check x m)
    (himp : ∀ t k, check t k → check' t k) : Throughout h depth check' x m := by
  intro alarm
  obtain ⟨f, hf⟩ := exists_marker (x (run h depth) m)
  have hcases : x (watched h check (flag fun _ _ => f) depth) m = x (watched h check' alarm depth) m ∨
      ∃ g k, g = f ∧ x (watched h check (flag fun _ _ => f) depth) m = .error (.fault g) k := by
    refine watched_eq_or_quits hx himp (fun _ _ _ => .inl ?_) depth
    rfl
  rw [hcheck] at hcases
  rcases hcases with he | ⟨_, k, rfl, he⟩
  · exact he.symm
  · exact absurd he (hf k)

open Classical in
/-- Checks that hold throughout hold throughout together. -/
theorem throughout_and (hx : Uniform x m) (hcheck : Throughout h depth check x m)
    (hcheck' : Throughout h depth check' x m) :
    Throughout h depth (fun t k => check t k ∧ check' t k) x m := by
  obtain ⟨f, f', hne, hf, hf'⟩ := exists_markers (x (run h depth) m)
  let both : Task → Machine → Prop := fun t k => check t k ∧ check' t k
  -- The fault tells whether the first check has failed or the second alone.
  let fault : Task → Machine → Fault := fun t k => if check t k then f' else f
  have hfirst : x (watched h both (flag fault) depth) m =
        x (watched h check (flag fun _ _ => f) depth) m ∨
      ∃ g k, g = f' ∧ x (watched h both (flag fault) depth) m = .error (.fault g) k := by
    refine watched_eq_or_quits hx (fun _ _ hb => hb.1) (fun t k hb => ?_) depth
    by_cases hc : check t k
    · exact .inl (if_pos hc)
    · exact .inr ⟨hc, by rw [flag, flag, show fault t k = f from if_neg hc]⟩
  have hsecond : x (watched h both (flag fault) depth) m =
        x (watched h check' (flag fun _ _ => f') depth) m ∨
      ∃ g k, g = f ∧ x (watched h both (flag fault) depth) m = .error (.fault g) k := by
    refine watched_eq_or_quits hx (fun _ _ hb => hb.2) (fun t k hb => ?_) depth
    by_cases hc : check t k
    · exact .inr ⟨fun hc' => hb ⟨hc, hc'⟩, by rw [flag, flag, show fault t k = f' from if_pos hc]⟩
    · exact .inl (if_neg hc)
  rw [hcheck] at hfirst
  rw [hcheck'] at hsecond
  have hrun : x (watched h both (flag fault) depth) m = x (run h depth) m := by
    rcases hfirst with he | ⟨_, k, rfl, he⟩
    · exact he
    · rcases hsecond with he' | ⟨_, k', rfl, he'⟩
      · exact he'
      · rw [he] at he'
        cases he'
        exact absurd rfl hne
  intro alarm
  have hany : x (watched h both (flag fault) depth) m = x (watched h both alarm depth) m ∨
      ∃ g k, (g = f ∨ g = f') ∧ x (watched h both (flag fault) depth) m = .error (.fault g) k := by
    refine watched_eq_or_quits hx (fun _ _ => id) (fun t k _ => .inl ?_) depth
    by_cases hc : check t k
    · exact .inr (if_pos hc)
    · exact .inl (if_neg hc)
  rw [hrun] at hany
  rcases hany with he | ⟨_, k, rfl | rfl, he⟩
  · exact he.symm
  · exact absurd he (hf k)
  · exact absurd he (hf' k)

end ModuleScript.Invariant
