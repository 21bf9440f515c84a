import ModuleScript.Proofs.Imports.Logged

/-!
# The log and the files loaded

A log is accounted for when it tells of exactly the files that have been loaded meanwhile, of each
its whole course once. A run that fails cuts the courses of the files at work short. In both cases a
file gets past an import only when all files reached through it have been left.
-/

set_option autoImplicit false

namespace ModuleScript

def Machine.HasLoaded (m : Machine) (p : Path) : Prop := (m.loaded? p).isSome = true

instance (m : Machine) (p : Path) : Decidable (m.HasLoaded p) :=
  inferInstanceAs (Decidable (_ = true))

namespace Machine

variable {m m' : Machine} {p q : Path}

/-- The machine on which a file has just been loaded, with these files still being loaded. -/
def finished (m : Machine) (p : Path) (e : Exports) (ps : List Path) : Machine :=
  { m with loading := ps, loaded := setLoaded p e m.loaded }

theorem loaded?_finished (m : Machine) (p q : Path) (e : Exports) (ps : List Path) :
    (m.finished p e ps).loaded? q = if p = q then some e else m.loaded? q :=
  loaded?_setLoaded { m with loading := ps } p q e

theorem hasLoaded_finished (m : Machine) (p q : Path) (e : Exports) (ps : List Path) :
    (m.finished p e ps).HasLoaded q ↔ q = p ∨ m.HasLoaded q := by
  unfold HasLoaded
  rw [loaded?_finished]
  by_cases hq : p = q
  · simp [hq]
  · simp [hq, Ne.symm hq]

end Machine

namespace Event

/-- What a log tells of a file. -/
def about (q : Path) (log : List Event) : List Event := log.filter (·.file = q)

@[simp] theorem about_nil (q : Path) : about q [] = [] := rfl

theorem about_append (q : Path) (l l' : List Event) : about q (l ++ l') = about q l ++ about q l' :=
  List.filter_append ..

/-- A file that has got so far. -/
def begun (p : Path) (i : Nat) : List Event := .entered p :: (List.range i).map (.passed p)

theorem begun_succ (p : Path) (i : Nat) : begun p (i + 1) = begun p i ++ [.passed p i] := by
  unfold begun
  rw [List.range_succ, List.map_append]
  rfl

theorem begun_mono (p : Path) {i j : Nat} (h : i ≤ j) : begun p i <+: begun p j := by
  induction h with
  | refl => exact List.prefix_refl _
  | @step j _ ih =>
    rw [begun_succ]
    exact ih.trans (List.prefix_append _ _)

theorem file_of_mem_begun {p : Path} {i : Nat} {e : Event} (h : e ∈ begun p i) : e.file = p := by
  rcases List.mem_cons.mp h with rfl | h
  · rfl
  · obtain ⟨j, -, rfl⟩ := List.mem_map.mp h
    rfl

theorem about_of_file {p : Path} {l : List Event} (h : ∀ e ∈ l, e.file = p) (q : Path) :
    about q l = if q = p then l else [] := by
  unfold about
  split
  · rename_i hq
    exact List.filter_eq_self.mpr fun e he => by simp [h e he, hq]
  · rename_i hq
    exact List.filter_eq_nil_iff.mpr fun e he => by simp [h e he, Ne.symm hq]

end Event

namespace Project

open Event

variable (P : Project)

def program (p : Path) : Program := (P.program? p).getD []

/-- The whole course of a file. -/
def course (p : Path) : List Event := begun p (P.program p).length ++ [.left p]

/-- A file gets past an import only when all files reached through it have been left, those left out
that were loaded before. -/
def Ordered (before : Machine) (log : List Event) : Prop :=
  ∀ l l' p i q r, log = l ++ .passed p i :: l' → P.ImportsAt p i q → P.Reaches q r →
    before.HasLoaded r ∨ .left r ∈ l

/-- The log tells of the files loaded meanwhile, of each its whole course; besides, it tells what is
set apart. -/
structure Account (before now : Machine) (own log : List Event) : Prop where
  grows : ∀ q, before.HasLoaded q → now.HasLoaded q
  about : ∀ q, about q log =
    (if now.HasLoaded q ∧ ¬ before.HasLoaded q then P.course q else []) ++ about q own
  ordered : P.Ordered before log
  reached : ∀ e ∈ log, P.Reaches P.main e.file

/-- The log tells of files that were neither loaded nor being loaded before, of each at most a
beginning of its course. -/
structure Cut (before : Machine) (log : List Event) : Prop where
  fresh : ∀ q, before.HasLoaded q ∨ q ∈ before.loading → Event.about q log = []
  begun : ∀ q, Event.about q log <+: P.course q
  ordered : P.Ordered before log
  reached : ∀ e ∈ log, P.Reaches P.main e.file

variable {P} {before now m : Machine} {own log log' : List Event} {p q : Path} {i : Nat}

theorem file_of_mem_course {e : Event} (h : e ∈ P.course p) : e.file = p := by
  rcases List.mem_append.mp h with h | h
  · exact file_of_mem_begun h
  · rw [List.mem_singleton.mp h]
    rfl

theorem left_mem_course (p : Path) : .left p ∈ P.course p := List.mem_append_right _ (.head _)

/-! ## The order of events -/

theorem ordered_nil (before : Machine) : P.Ordered before [] := by
  intro l l' p i q r h
  cases l <;> cases h

theorem ordered_single {e : Event}
    (h : ∀ p i q r, e = .passed p i → P.ImportsAt p i q → P.Reaches q r → before.HasLoaded r) :
    P.Ordered before [e] := by
  intro l l' p i q r he hi hr
  cases l with
  | nil =>
    obtain ⟨rfl, -⟩ := List.cons.inj he
    exact .inl (h p i q r rfl hi hr)
  | cons x l =>
    obtain ⟨-, he⟩ := List.cons.inj he
    cases l <;> cases he

/-- One log after the other, if the first tells of the files that have been loaded in between. -/
theorem Ordered.append (h : P.Ordered before log)
    (hnow : ∀ r, now.HasLoaded r → before.HasLoaded r ∨ .left r ∈ log) (h' : P.Ordered now log') :
    P.Ordered before (log ++ log') := by
  intro l l' p i q r he hi hr
  rcases List.append_eq_append_iff.mp he with ⟨k, rfl, hk⟩ | ⟨k, rfl, hk⟩
  · rcases h' k l' p i q r hk hi hr with hloaded | hleft
    · exact (hnow r hloaded).imp id fun h => List.mem_append_left _ h
    · exact .inr (List.mem_append_right _ hleft)
  · cases k with
    | nil =>
      rw [List.append_nil] at hnow
      rcases h' [] l' p i q r hk.symm hi hr with hloaded | hleft
      · exact hnow r hloaded
      · cases hleft
    | cons x k =>
      obtain ⟨rfl, -⟩ := List.cons.inj hk
      exact h l k p i q r rfl hi hr

theorem reached_append {l l' : List Event} (h : ∀ e ∈ l, P.Reaches P.main e.file)
    (h' : ∀ e ∈ l', P.Reaches P.main e.file) : ∀ e ∈ l ++ l', P.Reaches P.main e.file := by
  intro e he
  rcases List.mem_append.mp he with he | he
  · exact h e he
  · exact h' e he

/-! ## Accounts -/

theorem account_nil (m : Machine) : P.Account m m [] [] where
  grows _ h := h
  about q := by
    rw [if_neg fun h => h.2 h.1]
    rfl
  ordered := ordered_nil m
  reached _ h := by cases h

theorem account_of_loaded (h : ∀ q, now.HasLoaded q ↔ before.HasLoaded q) :
    P.Account before now [] [] where
  grows q := (h q).mpr
  about q := by
    rw [if_neg fun hq => hq.2 ((h q).mp hq.1)]
    rfl
  ordered := ordered_nil before
  reached _ h := by cases h

namespace Account

variable (h : P.Account before now own log)

include h

theorem left_mem (hq : now.HasLoaded q) : before.HasLoaded q ∨ .left q ∈ log := by
  by_cases hb : before.HasLoaded q
  · exact .inl hb
  · have hq' := h.about q
    rw [if_pos ⟨hq, hb⟩] at hq'
    have hmem : .left q ∈ Event.about q log := by
      rw [hq']
      exact List.mem_append_left _ (left_mem_course q)
    exact .inr (List.mem_of_mem_filter hmem)

/-- What is told of files that are being loaded stays apart from what is told of those loaded. -/
theorem append (hown : ∀ q, m.HasLoaded q → Event.about q own = []) (h' : P.Account now m [] log') :
    P.Account before m own (log ++ log') where
  grows q hq := h'.grows q (h.grows q hq)
  about q := by
    rw [about_append, h.about q, h'.about q]
    by_cases hb : before.HasLoaded q
    · simp [hb, h.grows q hb]
    · by_cases hn : now.HasLoaded q
      · simp [hb, hn, h'.grows q hn]
      · by_cases hm : m.HasLoaded q
        · simp [hb, hn, hm, hown q hm]
        · simp [hn, hm]
  ordered := h.ordered.append (fun _ => h.left_mem) h'.ordered
  reached := reached_append h.reached h'.reached

/-- An event that is set apart. -/
theorem note {e : Event} (hreach : P.Reaches P.main e.file)
    (he : ∀ p i q r, e = .passed p i → P.ImportsAt p i q → P.Reaches q r → now.HasLoaded r) :
    P.Account before now (own ++ [e]) (log ++ [e]) where
  grows := h.grows
  about q := by rw [about_append, about_append, h.about q, List.append_assoc]
  ordered := h.ordered.append (fun _ => h.left_mem) (ordered_single he)
  reached := reached_append h.reached (List.forall_mem_singleton.mpr hreach)

/-- A file that has run its course is loaded. -/
theorem close (hown : own = P.course p) (hm : ∀ q, m.HasLoaded q ↔ q = p ∨ now.HasLoaded q)
    (hp : ¬ now.HasLoaded p) : P.Account before m [] log where
  grows q hq := (hm q).mpr (.inr (h.grows q hq))
  about q := by
    rw [h.about q, hown, about_of_file (fun _ => file_of_mem_course) q]
    by_cases hq : q = p
    · subst hq
      have hb : ¬ before.HasLoaded q := fun hb => hp (h.grows q hb)
      simp [hm, hp, hb]
    · simp [hm, hq]
  ordered := h.ordered
  reached := h.reached

/-- A run cut short after an account. -/
theorem cut {j : Nat} (hown : own = begun p j)
    (hj : j ≤ (P.program p).length) (hp : p ∈ now.loading) (hbefore : p ∉ before.loading)
    (hloading : ∀ q ∈ before.loading, q ∈ now.loading)
    (hapart : ∀ q, now.HasLoaded q → q ∉ now.loading) (h' : P.Cut now log') :
    P.Cut before (log ++ log') := by
  have habout : ∀ q, Event.about q own = if q = p then own else [] := by
    intro q
    exact about_of_file (fun e he => file_of_mem_begun (hown ▸ he)) q
  have hnone : ∀ q, q ≠ p → Event.about q own = [] := fun q hq => by rw [habout, if_neg hq]
  refine ⟨fun q hq => ?_, fun q => ?_, h.ordered.append (fun _ => h.left_mem) h'.ordered,
    reached_append h.reached h'.reached⟩
  · rw [about_append, h.about q]
    rcases hq with hq | hq
    · have hne : q ≠ p := fun he => hapart q (h.grows q hq) (he ▸ hp)
      rw [if_neg fun hn => hn.2 hq, hnone q hne, h'.fresh q (.inl (h.grows q hq))]
      rfl
    · have hne : q ≠ p := fun he => hbefore (he ▸ hq)
      have hn : ¬ now.HasLoaded q := fun hn => hapart q hn (hloading q hq)
      rw [if_neg fun hn' => hn hn'.1, hnone q hne, h'.fresh q (.inr (hloading q hq))]
      rfl
  · rw [about_append, h.about q]
    by_cases hq : q = p
    · subst hq
      have hn : ¬ now.HasLoaded q := fun hn => hapart q hn hp
      rw [if_neg fun hn' => hn hn'.1, h'.fresh q (.inr hp), habout, if_pos rfl, List.append_nil,
        List.nil_append, hown]
      exact (begun_mono q hj).trans (List.prefix_append _ _)
    · rw [hnone q hq, List.append_nil]
      by_cases hn : now.HasLoaded q ∧ ¬ before.HasLoaded q
      · rw [if_pos hn, h'.fresh q (.inl hn.1)]
        exact ⟨[], by rw [List.append_nil, List.append_nil]⟩
      · rw [if_neg hn, List.nil_append]
        exact h'.begun q

end Account

theorem cut_nil (m : Machine) : P.Cut m [] :=
  ⟨fun _ _ => rfl, fun _ => List.nil_prefix, ordered_nil m, fun _ h => by cases h⟩

end Project

end ModuleScript
