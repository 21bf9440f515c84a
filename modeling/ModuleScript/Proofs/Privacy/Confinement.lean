import ModuleScript.Proofs.Privacy.Sessions
import ModuleScript.Proofs.Watch

/-!
# Private members are confined to their modules

At every point of every session a node runs as code of the module in whose body it stands, wherever
it is called from. So a private member is read only by code that stands directly in a body of its
module, and all other code that tries to read it is refused.
-/

set_option autoImplicit false

namespace ModuleScript

open Eval Session

/-- To evaluate the node in the context is to try to read this private member of a module with this
path: by a plain name, by the first part of a dotted name, by a later part, or to add a variant. -/
inductive Attempts (c : Context) (m : Machine) : Stmt → ModulePath → Ident → Prop where
  | name {l : Location} {x : Ident} {r : Resolution} {i : RecordId} :
      m.lookup c.scope x = some r → r.owner = some i → r.visibility = .isPrivate →
      Attempts c m (.expr (.name l x)) (m.record i).path x
  | first {l : Location} {x : Ident} {rest : List Ident} {r : Resolution} {i : RecordId} :
      m.lookup c.scope x = some r → r.owner = some i → r.visibility = .isPrivate →
      Attempts c m (.expr (.dotted l (x :: rest))) (m.record i).path x
  | later {l : Location} {before : List Ident} {x : Ident} {rest : List Ident} {i : RecordId}
      {path : ModulePath} {slot : Slot} : before ≠ [] →
      dotted c before m = .ok (.module i path) m →
      (m.record i).member? x = some (slot, .isPrivate) →
      Attempts c m (.expr (.dotted l (before ++ x :: rest))) (m.record i).path x
  | variation {l l' : Location} {x : Ident} {params : List Ident} {body : Expr} {r : Resolution}
      {i : RecordId} : m.lookup c.scope x = some r → r.owner = some i →
      r.visibility = .isPrivate →
      Attempts c m (.variation l x l' params body) (m.record i).path x

/-- The node fails, as an attempt to read a member that is private to another module. -/
def Refused (h : Host) (c : Context) (s : Stmt) (m : Machine) (path : ModulePath) (x : Ident) :
    Prop :=
  ∀ self, step h self (.eval c s) m =
    located h s.location (because (.privateMember x path.text)) m

/-- A node runs as code of the module it stands in, and reads private members of no other. -/
def Confined (h : Host) (commands : List Command) : Task → Machine → Prop
  | .eval c s, m =>
    (∃ source program, Knows h commands source program ∧ LiesIn source program c.module s) ∧
      ∀ path x, Attempts c m s path x → c.module = some path ∨ Refused h c s m path x
  | _, _ => True

/-- Nodes run as code of the modules they stand in; no member is secret. -/
def confinement (h : Host) (commands : List Command) : Discipline where
  Secret _ _ := False
  Node code s := Orderly s ∧ ∃ source program, Knows h commands source program ∧
    LiesIn source program code s
  part := by
    rintro code s t ⟨ho, source, program, hk, u, hu, hs⟩ ht
    exact ⟨ho.part ht, source, program, hk, u, hu, hs.trans (.part ht (.refl code t))⟩
  part_isModule hn ht := hn.1.part_isModule ht
  quiet _ _ hx := hx

namespace Confinement

variable {h : Host} {commands : List Command} {c : Context} {s : Stmt} {m n : Machine}
  {path : ModulePath} {x : Ident}

theorem governs (h : Host) (commands : List Command) :
    (confinement h commands).Governs h commands := by
  intro source program hk
  refine Discipline.declareAll_of_within hk.orderly fun s hs inner t ht => ?_
  exact ⟨(hk.orderly s hs).within ht, source, program, hk, s, hs, ht⟩

/-- Machines that are alike are equal, as no member is secret. -/
theorem alike_eq (ha : (confinement h commands).Alike m n) : n = m := by
  obtain ⟨⟨rs, rfl⟩, hsize, hrecord⟩ := ha
  have hall : ∀ i, (m.withRecords rs).record i = m.record i := by
    intro i
    obtain ⟨hpath, hparent, hpublic, hprivate⟩ := hrecord i
    have hmembers := hprivate.eq fun _ _ _ hs => hs.resolve_left id
    revert hpath hparent hpublic hmembers
    generalize m.record i = r, (m.withRecords rs).record i = r'
    cases r
    cases r'
    rintro ⟨⟩ ⟨⟩ ⟨⟩ ⟨⟩
    rfl
  have hrecords : rs = m.records := by
    refine Array.ext hsize fun i hi hi' => ?_
    have he := hall i
    unfold Machine.record Machine.withRecords at he
    simpa [hi, hi'] using he
  rw [hrecords]
  rfl

theorem canAccess_of_ne {code : Option ModulePath} {path : ModulePath} (hne : code ≠ some path) :
    canAccess code path .isPrivate = false := by
  simp [canAccess, hne]

/-- An attempt succeeds only as code of the module itself. -/
theorem refused_of_ne (hs : (confinement h commands).Sound m) (ha : Attempts c m s path x)
    (hne : c.module ≠ some path) : Refused h c s m path x := by
  intro self
  refine located_congr h s.location ?_
  cases ha with
  | name hl ho hv =>
    have hr := resolve_of_refused hl ho (by rw [hv]; exact canAccess_of_ne hne)
    exact bind_of_error hr
  | first hl ho hv =>
    have hr := resolve_of_refused hl ho (by rw [hv]; exact canAccess_of_ne hne)
    exact bind_of_error hr
  | variation hl ho hv =>
    have hr := resolve_of_refused hl ho (by rw [hv]; exact canAccess_of_ne hne)
    exact bind_of_error hr
  | @later _ before x rest i p slot hb hd hm =>
    obtain ⟨walked, he⟩ := dotted_append hb (x :: rest) hd
    have hvalid : (confinement h commands).Valid m (.module i p) := by
      have hc : ∀ y ∈ before, (confinement h commands).Allows c.module y := fun _ _ _ _ hy => hy
      have hdotted := Discipline.dotted_alike hs (Discipline.alike_refl m) hc
      rcases hdotted with ⟨v, hv, -, hvalid⟩ | ⟨e, he, -⟩
      · rw [hd] at hv
        cases hv
        exact hvalid
      · rw [hd] at he
        cases he
    have hpath : (m.record i).path = p := by
      cases hvalid with
      | plain hp => cases hp
      | module hp => exact hp.2.2.2
    change dotted c (before ++ x :: rest) m = _
    rw [he, follow_of_some walked p rest hm, ← hpath, readSlot_of_refused (canAccess_of_ne hne)]
    rfl

theorem confined_of_node (hs : (confinement h commands).Sound m)
    (hn : (confinement h commands).Node c.module s) : Confined h commands (.eval c s) m := by
  refine ⟨hn.2, fun path x ha => ?_⟩
  by_cases hne : c.module = some path
  · exact .inl hne
  · exact .inr (refused_of_ne hs ha hne)

theorem node_of_declares {source : Text} {code : Option ModulePath} {s' : Stmt}
    (hd : (confinement h commands).Declares source code s s') :
    (confinement h commands).Node code s := by
  cases hd with
  | node _ hn => exact hn
  | secret hx => exact hx.elim
  | module hn _ => exact hn

section Checked

variable {check : Task → Machine → Prop} {commands : List Command}
  (hcheck : ∀ {t m}, (confinement h commands).Sound m →
    (∀ c s, t = .eval c s → (confinement h commands).Node c.module s) → check t m)

include hcheck

/-- A run that hands tasks to an alarm that fail the check agrees with one that does not. -/
theorem watched_agrees (alarm : Step) (depth : Nat) :
    ((confinement h commands).simulation h (governs h commands).covers).Follows
      (watched h check alarm depth) (run h depth) := by
  induction depth with
  | zero => exact Actions.follows_tooDeep _ _ (fun _ => rfl) fun _ => rfl
  | succ depth ih =>
    have hloads : Actions.LoadsBelow
        ((confinement h commands).simulation h (governs h commands).covers).toActions h
        (watched h check alarm depth) (run h depth) :=
      fun o => Simulation.loads (fun _ => trivial) (ih.below h o)
    have hpass : ∀ {t : Task} {m : Machine}, (∀ c s, t ≠ .eval c s) →
        (confinement h commands).Sound m →
        watched h check alarm (depth + 1) t m = step h (watched h check alarm depth) t m :=
      fun ht hs => watched_of_check (hcheck hs fun c s he => absurd he (ht c s)) alarm depth
    have hattends : ((confinement h commands).simulation h (governs h commands).covers).Attends
        (watched h check alarm (depth + 1)) (run h (depth + 1)) := by
      refine ⟨?_, ?_, ?_, ?_⟩
      · rintro w c c' s hc _ n ⟨rfl, hs, ha⟩
        have hnode : check (.eval c s) w := hcheck hs fun _ _ ht => by cases ht; exact hc.2.2.1
        rw [watched_of_check hnode]
        exact Actions.code_agrees ih hloads hc ⟨trivial, .inl trivial, .inl trivial⟩ w n
          ⟨rfl, hs, ha⟩
      · rintro w c s c' s' hd _ n ⟨rfl, hs, ha⟩
        have hnode : check (.eval c s) w :=
          hcheck hs fun _ _ ht => by cases ht; exact node_of_declares hd.2.2
        rw [watched_of_check hnode]
        refine Actions.decl_agrees ih hloads hd ⟨trivial, .inl trivial, .inl trivial⟩ ?_ w n
          ⟨rfl, hs, ha⟩
        rintro ⟨-, -, hx⟩
        exact hx.elim
      · rintro w s s' f f' args args' hsite hf hargs _ n ⟨rfl, hs, ha⟩
        rw [hpass (fun _ _ => Task.noConfusion) hs]
        exact Actions.apply_step_agrees ih hsite hf hargs w n ⟨rfl, hs, ha⟩
      · rintro w d _ n ⟨rfl, hs, ha⟩
        rw [hpass (fun _ _ => Task.noConfusion) hs]
        exact Actions.ask_agrees h _ _ d w n ⟨rfl, hs, ha⟩
    refine hattends.follows (fun t hm => ?_) ih
    obtain ⟨rfl, hs, -⟩ := hm
    exact ⟨hpass (fun _ _ => Task.noConfusion) hs, rfl⟩

end Checked

/-- A check that all tasks pass that run as code of the modules they stand in holds throughout. -/
theorem throughout_of_confinement {history : List Command} {command : Command}
    {check : Task → Machine → Prop}
    (hcheck : ∀ {t m}, (confinement h (history ++ [command])).Sound m →
      (∀ c s, t = .eval c s → (confinement h (history ++ [command])).Node c.module s) → check t m)
    (input : Text) :
    Throughout h h.depth check (command.perform h) (after h input history).machine := by
  intro alarm
  have hD := governs h (history ++ [command])
  obtain ⟨-, hm⟩ := Discipline.after_steady hD input fun c hc => List.mem_append_left [command] hc
  have hrun := watched_agrees hcheck alarm h.depth
  have hmem : command ∈ history ++ [command] := List.mem_append_right _ (.head _)
  have hends := Discipline.perform_agrees hD hmem hrun hm.started _ _
    ⟨rfl, hm.sound, Discipline.alike_refl _⟩
  dsimp only
  generalize command.perform h (watched h check alarm h.depth)
    (after h input history).machine = r, command.perform h (run h h.depth)
    (after h input history).machine = r' at hends ⊢
  cases hends with
  | ok _ hk hv =>
    obtain ⟨rfl, -, ha⟩ := hk
    rw [alike_eq ha, Discipline.like_eq hv]
  | error _ hk =>
    obtain ⟨rfl, -, ha⟩ := hk
    rw [alike_eq ha]

/-- In every session and throughout every command, nodes run as code of the modules they stand in,
and private members are read by code of their own module and refused to all other. -/
theorem private_members_confined (h : Host) (input : Text) (history : List Command)
    (command : Command) :
    Throughout h h.depth (Confined h (history ++ [command])) (command.perform h)
      (after h input history).machine := by
  refine throughout_of_confinement (fun {t m} hs hn => ?_) input
  cases t with
  | eval c s => exact confined_of_node hs (hn c s rfl)
  | apply | ask | wait => trivial

end Confinement

end ModuleScript
