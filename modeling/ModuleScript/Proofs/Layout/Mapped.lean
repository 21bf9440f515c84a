import ModuleScript.Proofs.Layout.Runs
import ModuleScript.Proofs.Locations
import ModuleScript.Proofs.Scopes.Meaning
import ModuleScript.Proofs.Scopes.Shadowing

/-!
# A function applied to each element

The natives `fmap` and `filter` apply a function to the elements of a list. A comprehension does so in a
new frame for each element, and there it looks the function up by its name. The new frames stand aside,
and all that can have happened to the function meanwhile is that it has got more variants, but no other
one for a single argument.
-/

set_option autoImplicit false

namespace ModuleScript

open Eval Session

/-! ## Loops -/

theorem mapM_eq_filterMapM {α β : Type} (f : α → Eval β) (xs : List α) :
    xs.mapM f = xs.filterMapM fun a => f a >>= fun b => pure (some b) := by
  induction xs with
  | nil => rfl
  | cons a xs ih =>
    rw [List.mapM_cons, List.filterMapM_cons, bind_assoc, ih]
    refine bind_congr fun b => ?_
    rw [pure_bind]

theorem filterAuxM_eq {α : Type} (p : α → Eval Bool) (xs kept : List α) :
    xs.filterAuxM p kept =
      (xs.filterMapM fun a => p a >>= fun b => pure (if b then some a else none)) >>= fun ys =>
        pure (ys.reverse ++ kept) := by
  induction xs generalizing kept with
  | nil => rfl
  | cons a xs ih =>
    rw [List.filterMapM_cons, List.filterAuxM, bind_assoc, bind_assoc]
    refine bind_congr fun b => ?_
    rw [pure_bind]
    cases b with
    | false => exact ih kept
    | true =>
      refine (ih (a :: kept)).trans ?_
      simp only [if_true, bind_assoc, pure_bind, List.reverse_cons, List.append_assoc,
        List.singleton_append]

theorem filterM_eq_filterMapM {α : Type} (p : α → Eval Bool) (xs : List α) :
    xs.filterM p = xs.filterMapM fun a => p a >>= fun b => pure (if b then some a else none) := by
  unfold List.filterM
  rw [filterAuxM_eq, bind_assoc]
  simp only [pure_bind, List.append_nil, List.reverse_reverse, bind_pure]

namespace Layout

variable {h : Host} {w w' : Layout} {m₀ m n : Machine} {c : Context} {f g x xs : Ident}
  {fv gv a a' xv : Value} {depth : Nat} {s : Site}

/-! ## One call -/

/-- If it is a function, it has a variant for one argument. -/
def Unary (f : Value) : Prop := ∀ k : Closure, f = .closure k → (k.variant? 1).isSome = true

/-- A function that no call with one argument can enter leaves everything as it is. -/
theorem apply_of_not_unary (hf : ¬ Unary fv) (h : Host) (depth : Nat) (s : Site) (a : Value)
    (n : Machine) : ∃ e, run h depth (.apply s fv [a]) n = .error e n := by
  unfold Unary at hf
  simp only [not_forall] at hf
  obtain ⟨k, rfl, hk⟩ := hf
  have hnone : k.variant? [a].length = none := by simpa using hk
  cases depth with
  | zero => exact ⟨_, rfl⟩
  | succ depth =>
    change ∃ e, applyClosure ((run h depth).below h (.apply 1)) s k [a] n = .error e n
    unfold applyClosure
    rw [hnone]
    exact ⟨_, rfl⟩

/-- More variants make no difference to a function that has one for one argument. -/
theorem apply_extends (hf : Unary fv) (hfg : Slot.Extends (.value fv) (.value gv)) (h : Host)
    (depth : Nat) (s : Site) (a : Value) :
    run h depth (.apply s gv [a]) = run h depth (.apply s fv [a]) := by
  cases hfg with
  | refl => rfl
  | @closure k k' hk =>
    cases depth with
    | zero => rfl
    | succ depth =>
      obtain ⟨v, hv⟩ := Option.isSome_iff_exists.mp (hf k rfl)
      have hv₁ : k.variant? [a].length = some v := hv
      have hv₂ : k'.variant? [a].length = some v := hk.variants 1 v hv
      change applyClosure ((run h depth).below h (.apply 1)) s k' [a] =
        applyClosure ((run h depth).below h (.apply 1)) s k [a]
      unfold applyClosure callFrame
      rw [hv₁, hv₂, hk.name]

/-- A name with a value, evaluated. -/
theorem run_name {v : Value} (hv : meaning c x m = .ok v) (h : Host) (depth : Nat) (l : Location) :
    run h (depth + 1) (.eval c (.expr (.name l x))) m = .ok v m := by
  obtain ⟨r, hr⟩ := resolve_of_meaning hv
  have hname : (resolve c x >>= fun p => pure p.2) m = .ok v m := bind_of_ok hr
  exact located_of_ok h l hname

/-- One name applied to another. -/
def application (l₁ l₂ l₃ : Location) (f x : Ident) : Expr := .call l₁ (.name l₂ f) [.name l₃ x]

theorem run_application (hf : meaning c f m = .ok fv) (hx : meaning c x m = .ok a) (h : Host)
    (depth : Nat) (l₁ l₂ l₃ : Location) :
    unplaced (run h.flat (depth + 2) (.eval c (.expr (application l₁ l₂ l₃ f x)))) m =
      unplaced (run h.flat (depth + 2) (.apply c.site fv [a])) m := by
  have hargs : (run h.flat (depth + 1)).exprs c [.name l₃ x] m = .ok [a] m := by
    change ((run h.flat (depth + 1)).expr c (.name l₃ x) >>= fun v => pure [v]) m = _
    exact bind_of_ok (run_name hx h.flat depth l₃)
  have hcall : stmt h.flat (run h.flat (depth + 1)) c (.expr (application l₁ l₂ l₃ f x)) m =
      run h.flat (depth + 2) (.apply c.site fv [a]) m := by
    change ((run h.flat (depth + 1)).expr c (.name l₂ f) >>= fun v =>
      (run h.flat (depth + 1)).exprs c [.name l₃ x] >>= fun args =>
        applyValue (run h.flat (depth + 1)) c.site v args) m = _
    have hcallee : (run h.flat (depth + 1)).expr c (.name l₂ f) m = .ok fv m := run_name hf h.flat depth l₂
    rw [bind_of_ok hcallee, bind_of_ok hargs]
    rfl
  have hlocated : run h.flat (depth + 2) (.eval c (.expr (application l₁ l₂ l₃ f x))) =
      located h.flat l₁ (stmt h.flat (run h.flat (depth + 1)) c (.expr (application l₁ l₂ l₃ f x))) := rfl
  rw [hlocated, unplaced_located]
  exact unplaced_congr hcall

/-! ## Call after call -/

/-- The machine is one that calls of the value with one argument, and new frames, may have led to. -/
structure Since (m₀ : Machine) (f : Value) (n : Machine) : Prop where
  extends_of_unary : Unary f → Machine.Kept Slot.Extends m₀.frames.size m₀ n
  kept_of_not_unary : ¬ Unary f → Machine.Kept Eq m₀.frames.size m₀ n

theorem since_refl (m : Machine) (f : Value) : Since m f m :=
  ⟨fun _ => Machine.kept_refl .refl _ m, fun _ => Machine.kept_refl (fun _ => rfl) _ m⟩

theorem Since.pushFrame (hn : Since m₀ fv n) {g : Frame} (hg : g.record = none) :
    Since m₀ fv (n.pushFrame g) := by
  have hrecord : ∀ r, g.record = some r → m₀.records.size ≤ r := by
    intro r hr
    rw [hg] at hr
    cases hr
  exact ⟨fun hf => (hn.extends_of_unary hf).pushFrame hrecord,
    fun hf => (hn.kept_of_not_unary hf).pushFrame hrecord⟩

theorem Since.apply (hn : Since m₀ fv n) (h : Host) (depth : Nat) (s : Site) (a : Value) :
    Since m₀ fv (endOf (run h depth (.apply s fv [a]) n)) := by
  constructor
  · intro hf
    exact Scopes.apply_keeps h depth s fv [a] (hn.extends_of_unary hf)
  · intro hf
    obtain ⟨e, he⟩ := apply_of_not_unary hf h depth s a n
    rw [he]
    exact hn.kept_of_not_unary hf

/-- The name of the function now stands for one that a call with one argument does not tell from it. -/
theorem Since.meaning (hn : Since m₀ fv n) (hm : m₀.Ranged) (hc : m₀.extent.HasContext c)
    (hf : Eval.meaning c f m₀ = .ok fv) :
    ∃ gv, Eval.meaning c f n = .ok gv ∧ ∀ h depth s a,
      run h depth (.apply s gv [a]) = run h depth (.apply s fv [a]) := by
  by_cases hunary : Unary fv
  · obtain ⟨gv, hg, hfg⟩ := meaning_related (fun _ he => by cases he) hm.attached
      (hn.extends_of_unary hunary) hc.scope hf
    exact ⟨gv, hg, apply_extends hunary hfg⟩
  · obtain ⟨gv, hg, hfg⟩ := meaning_related (fun _ he => by cases he) hm.attached
      (hn.kept_of_not_unary hunary) hc.scope hf
    cases hfg
    exact ⟨fv, hg, fun _ _ _ _ => rfl⟩

/-- Two runs along a layout, of which the second keeps what there was. -/
abbrev applying (m₀ : Machine) (f : Value) : Worlds where
  World := Layout
  Later := (· <+: ·)
  later_refl _ := List.prefix_rfl
  later_trans := List.IsPrefix.trans
  Machines w m n := w.Machines m n ∧ Since m₀ f n

theorem applying_of_ends {α β : Type} {P : Layout → α → β → Prop}
    {r : EStateM.Result Failure Machine α} {r' : EStateM.Result Failure Machine β}
    (he : worlds.Ends w P r r') (hn : Since m₀ fv (endOf r')) : (applying m₀ fv).Ends w P r r' := by
  cases he with
  | ok hl hk hp => exact .ok hl ⟨hk, hn⟩ hp
  | error hl hk => exact .error hl ⟨hk, hn⟩

/-- The frame of a comprehension for one element. -/
def itemFrame (x : Ident) (a : Value) : Frame :=
  { name := "comprehension", bindings := [(x, .value a)] }

/-- The context of a comprehension for one element. -/
def itemContext (c : Context) (n : Machine) : Context :=
  { c with scope := c.scope.push n.frames.size }

section Items

variable (hm : m₀.Ranged) (hc : m₀.extent.HasContext c) (hf : meaning c f m₀ = .ok fv) (hne : x ≠ f)

include hm hc hf hne

/-- The function is applied to an element, or its name to that of the element in a new frame. -/
theorem application_ends (hw : start m₀.frames.size <+: w) (hn : (applying m₀ fv).Machines w m n)
    (ha : w.Values a a') (h : Host) (depth : Nat) (l₁ l₂ l₃ : Location) :
    (applying m₀ fv).Ends w
      (fun w' v v' => w'.Values v v' ∧ w'[n.frames.size]? = some (.aside (itemFrame x a')))
      (unplaced (run h.flat (depth + 2) (.apply c.site fv [a])) m)
      (unplaced (run h.flat (depth + 2) (.eval (itemContext c n) (.expr (application l₁ l₂ l₃ f x))))
        (n.pushFrame (itemFrame x a'))) := by
  obtain ⟨hmachines, hsince⟩ := hn
  have hl : w <+: w ++ [.aside (itemFrame x a')] := List.prefix_append _ _
  have hnew : (w ++ [.aside (itemFrame x a')])[n.frames.size]? = some (.aside (itemFrame x a')) :=
    getElem?_push.mpr (.inr ⟨hmachines.size.symm, rfl⟩)
  have hsince₁ := hsince.pushFrame (g := itemFrame x a') rfl
  have hframe : (n.pushFrame (itemFrame x a')).frame n.frames.size = itemFrame x a' :=
    Machine.frame_pushFrame_size _ _
  obtain ⟨gv, hg, hsame⟩ := hsince₁.meaning hm hc hf
  have hcallee : meaning (itemContext c n) f (n.pushFrame (itemFrame x a')) = .ok gv :=
    (meaning_of_passed hframe hne).trans hg
  have hitem : meaning (itemContext c n) x (n.pushFrame (itemFrame x a')) = .ok a' :=
    meaning_of_bound hframe
  rw [run_application hcallee hitem, hsame]
  refine Worlds.Ends.unplaced ?_
  obtain ⟨r, hr⟩ := resolve_of_meaning hf
  have hsite : Sites (w ++ [.aside (itemFrame x a')]) c.site c.site :=
    (contexts_start hc).site.later (hw.trans hl)
  have hvalue : Values (w ++ [.aside (itemFrame x a')]) fv fv :=
    matches_later (hw.trans hl) (matches_start (hm.holds.resolve hr))
  have happly : worlds.Agree (w ++ [.aside (itemFrame x a')])
      (fun w' v v' => w'.Values v v' ∧ w'[n.frames.size]? = some (.aside (itemFrame x a')))
      (run h.flat (depth + 2) (.apply c.site fv [a])) (run h.flat (depth + 2) (.apply c.site fv [a'])) :=
    ((follows h.flat (depth + 2)).apply hsite hvalue (.cons (matches_later hl ha) .nil)).imp
      fun _ _ _ hl' hv => ⟨hv, getElem?_later hl' hnew⟩
  have hends := happly m _ (hmachines.pushAside (itemFrame x a'))
  exact (applying_of_ends hends (hsince₁.apply h.flat (depth + 2) c.site a')).of_later hl

/-- An element of the list that `fmap` makes, and of the one that a comprehension makes. -/
theorem mapped_agrees (hw : start m₀.frames.size <+: w) (ha : w.Values a a') (h : Host) (depth : Nat)
    (l₁ l₂ l₃ : Location) :
    (applying m₀ fv).Agree w (fun w' => Option.Rel w'.Values)
      (unplaced (run h.flat (depth + 2) (.apply c.site fv [a]) >>= fun v => pure (some v)))
      (unplaced (comprehend (run h.flat (depth + 2)) c (application l₁ l₂ l₃ f x) x none a')) := by
  intro m n hn
  have hcall := application_ends hm hc hf hne hw hn ha h depth l₁ l₂ l₃
  have hentered : unplaced (comprehend (run h.flat (depth + 2)) c (application l₁ l₂ l₃ f x) x none a') n =
      unplaced (run h.flat (depth + 2) (.eval (itemContext c n) (.expr (application l₁ l₂ l₃ f x))) >>=
        fun v => pure (some v)) (n.pushFrame (itemFrame x a')) := rfl
  rw [hentered, unplaced_bind, unplaced_bind]
  exact hcall.bind fun w' v v' _ hv => Worlds.agree_pure (.some hv.1)

/-- An element that `filter` keeps or not, and that a comprehension with a condition does. -/
theorem filtered_agrees (hw : start m₀.frames.size <+: w) (ha : w.Values a a') (h : Host)
    (depth : Nat) (l₁ l₂ l₃ l₄ : Location) :
    (applying m₀ fv).Agree w (fun w' => Option.Rel w'.Values)
      (unplaced ((run h.flat (depth + 2) (.apply c.site fv [a]) >>= isTruthy) >>= fun b =>
        pure (if b then some a else none)))
      (unplaced (comprehend (run h.flat (depth + 2)) c (.name l₄ x) x (some (application l₁ l₂ l₃ f x))
        a')) := by
  intro m n hn
  have hcall := application_ends hm hc hf hne hw hn ha h depth l₁ l₂ l₃
  have hentered : unplaced (comprehend (run h.flat (depth + 2)) c (.name l₄ x) x
        (some (application l₁ l₂ l₃ f x)) a') n =
      unplaced (run h.flat (depth + 2) (.eval (itemContext c n) (.expr (application l₁ l₂ l₃ f x))) >>=
        fun v => isTruthy v >>= fun b =>
          if b then (run h.flat (depth + 2)).expr (itemContext c n) (.name l₄ x) >>= fun u => pure (some u)
          else pure none) (n.pushFrame (itemFrame x a')) := rfl
  rw [hentered, bind_assoc, unplaced_bind, unplaced_bind]
  refine hcall.bind fun w' v v' hl hv k k' hk => ?_
  obtain ⟨hv, haside⟩ := hv
  unfold isTruthy
  rw [Likeness.truthy_eq hv]
  cases v'.truthy with
  | error e => exact .error List.prefix_rfl hk
  | ok b =>
    cases b with
    | false => exact .ok List.prefix_rfl hk .none
    | true =>
      have hitem : meaning (itemContext c n) x k' = .ok a' := meaning_of_bound (hk.1.aside haside)
      have hkeep : (lift (.ok true) >>= fun b => if b then
            (run h.flat (depth + 2)).expr (itemContext c n) (.name l₄ x) >>= fun u => pure (some u)
          else pure none) k' = .ok (some a') k' := bind_of_ok (run_name hitem h.flat (depth + 1) l₄)
      rw [unplaced_ok hkeep]
      exact .ok List.prefix_rfl hk (.some (matches_later hl ha))

end Items

/-! ## All elements -/

theorem items_agree (hxv : (start m₀.frames.size).Values xv xv) {items : List Value}
    (hi : xv.items? = some items) {each each' : Value → Eval (Option Value)}
    (hall : ∀ {w : Layout} {a a'}, start m₀.frames.size <+: w → w.Values a a' →
      (applying m₀ fv).Agree w (fun w' => Option.Rel w'.Values) (unplaced (each a))
        (unplaced (each' a'))) :
    (applying m₀ fv).Agree (start m₀.frames.size) Values
      (unplaced (items.filterMapM each >>= fun vs => pure (Value.ofItems vs)))
      (unplaced (items.filterMapM each' >>= fun vs => pure (Value.ofItems vs))) := by
  have hitems : List.Forall₂ (start m₀.frames.size).Values items items := by
    have hrel := Likeness.Matches.items? hxv
    rw [hi] at hrel
    cases hrel with
    | some h => exact h
  have hloop := Worlds.agree_filterMapM (S := applying m₀ fv) (w := start m₀.frames.size)
    (P := Values) (fun _ _ hl hv => matches_later hl hv)
    (fun w' a a' hl ha => hall hl (matches_later hl ha)) hitems
  rw [unplaced_bind, unplaced_bind, unplaced_filterMapM, unplaced_filterMapM]
  exact hloop.bind fun _ _ _ _ hvs => Worlds.agree_pure (Likeness.matches_ofItems hvs)

/-- A comprehension over the value of a name. -/
theorem run_comprehension (hx : meaning c xs m = .ok xv) (h : Host) (depth : Nat) (l l' : Location)
    (element : Expr) (x : Ident) (condition : Option Expr) :
    run h.flat (depth + 2) (.eval c (.expr (.comprehension l element x (.name l' xs) condition))) m =
      located h.flat l (match xv.items? with
        | none => because (.cannotIterate xv.typeName)
        | some items => items.filterMapM (comprehend (run h.flat (depth + 1)) c element x condition) >>=
            fun vs => pure (Value.ofItems vs)) m := by
  have hname : (run h.flat (depth + 1)).expr c (.name l' xs) m = .ok xv m := run_name hx h.flat depth l'
  exact located_congr h.flat l (bind_of_ok hname)

theorem comprehension_of_items {items : List Value} (hx : meaning c xs m = .ok xv)
    (hi : xv.items? = some items) (h : Host) (depth : Nat) (l l' : Location) (element : Expr)
    (x : Ident) (condition : Option Expr) :
    unplaced (run h.flat (depth + 2) (.eval c (.expr (.comprehension l element x (.name l' xs)
        condition)))) m =
      unplaced (items.filterMapM (comprehend (run h.flat (depth + 1)) c element x condition) >>= fun vs =>
        pure (Value.ofItems vs)) m := by
  have hrun := run_comprehension hx h depth l l' element x condition
  rw [hi] at hrun
  exact (unplaced_congr hrun).trans (congrFun (unplaced_located h.flat l _) m)

/-! ## Both ways -/

/-- What the native `fmap` does, as a comprehension. -/
def mapping (l l₁ l₂ l₃ l₄ : Location) (f x xs : Ident) : Expr :=
  .comprehension l (application l₁ l₂ l₃ f x) x (.name l₄ xs) none

/-- What the native `filter` does, as a comprehension. -/
def selecting (l l₁ l₂ l₃ l₄ l₅ : Location) (f x xs : Ident) : Expr :=
  .comprehension l (.name l₅ x) x (.name l₄ xs) (some (application l₁ l₂ l₃ f x))

/-- Failures of one kind, and but for their places the same if there are elements to go through. -/
def Failing (xv : Value) (e e' : Failure) : Prop :=
  e.SameKind e' ∧ (xv.items? ≠ none → e.unplaced = e'.unplaced)

theorem endAlike_of_unplaced {x y : Eval Value} (he : (applying m₀ fv).Ends
    (start m₀.frames.size) Values (unplaced x m₀) (unplaced y m₀)) :
    EndAlike (Failing xv) m₀ (x m₀) (y m₀) := by
  unfold unplaced at he
  generalize x m₀ = r, y m₀ = r' at he ⊢
  cases r with
  | ok v k =>
    cases r' with
    | ok v' k' =>
      cases he with
      | ok hl hk hv => exact .ok hl hk.1 hv
    | error e' k' => cases he
  | error e k =>
    cases r' with
    | ok v' k' => cases he
    | error e' k' =>
      dsimp only at he
      generalize hu : e.unplaced = u, hu' : e'.unplaced = u' at he
      cases he with
      | error hl hk =>
        have hsame : e.unplaced = e'.unplaced := hu.trans hu'.symm
        exact .error hl hk.1 ⟨Failure.sameKind_of_unplaced hsame, fun _ => hsame⟩

/-- Where there are no elements to go through, both ways fail before they do anything. -/
theorem refused_alike (hm : m.Ranged) (hx : meaning c xs m = .ok xv) (hi : xv.items? = none)
    (h : Host) (depth : Nat) (l l' : Location) (element : Expr) (x : Ident)
    (condition : Option Expr) (native : Native) (rest : List Value → Eval Value) :
    EndAlike (Failing xv) m ((lift (xv.expectItems native) >>= rest) m)
      (run h.flat (depth + 2) (.eval c (.expr (.comprehension l element x (.name l' xs) condition))) m) := by
  have hnative : (lift (xv.expectItems native) >>= rest) m =
      .error (.report (Cause.listExpected native.name xv.typeName).report) m := by
    unfold Value.expectItems
    rw [hi]
    rfl
  have hcomprehension : run h.flat (depth + 2)
        (.eval c (.expr (.comprehension l element x (.name l' xs) condition))) m =
      .error (.report ((Cause.cannotIterate xv.typeName).report.locate l (h.flat.excerptAt l))) m := by
    rw [run_comprehension hx, hi]
    rfl
  rw [hnative, hcomprehension]
  exact .error List.prefix_rfl (machines_start hm) ⟨.report rfl, fun hne => absurd hi hne⟩

/-- A native that goes through elements ends as a comprehension does that treats each of them alike. -/
theorem native_alike (hm : m.Ranged) (hx : meaning c xs m = .ok xv) {t : Task} {native : Native}
    {rest : List Value → Eval Value}
    (hrest : run h.flat (depth + 3) t = lift (xv.expectItems native) >>= rest)
    {each : Value → Eval (Option Value)}
    (heach : ∀ items, rest items = items.filterMapM each >>= fun vs => pure (Value.ofItems vs))
    {element : Expr} {condition : Option Expr}
    (hall : ∀ {w : Layout} {a a'}, start m.frames.size <+: w → w.Values a a' →
      (applying m fv).Agree w (fun w' => Option.Rel w'.Values) (unplaced (each a))
        (unplaced (comprehend (run h.flat (depth + 2)) c element x condition a')))
    (l l' : Location) :
    EndAlike (Failing xv) m (run h.flat (depth + 3) t m)
      (run h.flat (depth + 3) (.eval c (.expr (.comprehension l element x (.name l' xs) condition))) m) := by
  rw [hrest]
  cases hi : xv.items? with
  | none => exact refused_alike hm hx hi h (depth + 1) l l' element x condition native rest
  | some items =>
    have hnative : lift (xv.expectItems native) >>= rest =
        items.filterMapM each >>= fun vs => pure (Value.ofItems vs) := by
      rw [← heach]
      unfold Value.expectItems
      rw [hi]
      rfl
    obtain ⟨r, hr⟩ := resolve_of_meaning hx
    have hends := items_agree (matches_start (hm.holds.resolve hr)) hi hall m m
      ⟨machines_start hm, since_refl m fv⟩
    rw [← hnative, ← comprehension_of_items hx hi h (depth + 1) l l'] at hends
    exact endAlike_of_unplaced hends

section Given

variable (hm : m.Ranged) (hc : m.extent.HasContext c) (hne : x ≠ f) (hf : meaning c f m = .ok fv)
  (hx : meaning c xs m = .ok xv)

include hm hc hne hf hx

theorem fmap_alike (h : Host) (depth : Nat) (l l₁ l₂ l₃ l₄ : Location) :
    EndAlike (Failing xv) m (run h.flat (depth + 3) (.apply c.site (.native .fmap) [fv, xv]) m)
      (run h.flat (depth + 3) (.eval c (.expr (mapping l l₁ l₂ l₃ l₄ f x xs))) m) := by
  refine native_alike hm hx (run_native h (depth + 1) _ .fmap _) (fun items => ?_)
    (fun hw ha => mapped_agrees hm hc hf hne hw ha h depth l₁ l₂ l₃) l l₄
  rw [← mapM_eq_filterMapM]

theorem filter_alike (h : Host) (depth : Nat) (l l₁ l₂ l₃ l₄ l₅ : Location) :
    EndAlike (Failing xv) m (run h.flat (depth + 3) (.apply c.site (.native .filter) [fv, xv]) m)
      (run h.flat (depth + 3) (.eval c (.expr (selecting l l₁ l₂ l₃ l₄ l₅ f x xs))) m) := by
  refine native_alike hm hx (run_native h (depth + 1) _ .filter _) (fun items => ?_)
    (fun hw ha => filtered_agrees hm hc hf hne hw ha h depth l₁ l₂ l₃ l₅) l l₄
  rw [← filterM_eq_filterMapM]

end Given

/-- The natives `fmap` and `filter` agree with comprehensions that apply a function by its name: unless
the depth is too small for either, both end with the same value or with failures of the same kind, and
the same output and effects, but for the numbers of frames. This is so whatever the function and the
elements are, on all machines that refer to nothing that has not been made, as in every session all do. -/
theorem natives_agree (h : Host) :
    (∀ (m : Machine) (c : Context), m.Ranged → m.extent.HasContext c →
      ∀ (f x xs : Ident) (fv xv : Value), x ≠ f → meaning c f m = .ok fv → meaning c xs m = .ok xv →
      ∀ l l₁ l₂ l₃ l₄ l₅ : Location,
        SameEnds h (Failing xv) m (.apply c.site (.native .fmap) [fv, xv])
          (.eval c (.expr (mapping l l₁ l₂ l₃ l₄ f x xs))) ∧
        SameEnds h (Failing xv) m (.apply c.site (.native .filter) [fv, xv])
          (.eval c (.expr (selecting l l₁ l₂ l₃ l₄ l₅ f x xs)))) ∧
    ∀ (input : Text) (history : List Command) (command : Command),
      Throughout h h.depth (fun t m => m.Ranged ∧ ∀ c s, t = .eval c s → m.extent.HasContext c)
        (command.perform h) (after h input history).machine := by
  refine ⟨?_, Machine.begins_ranged h⟩
  intro m c hm hc f x xs fv xv hne hf hx l l₁ l₂ l₃ l₄ l₅
  constructor
  · exact sameEnds_of_depths fun depth => fmap_alike hm hc hne hf hx h depth l l₁ l₂ l₃ l₄
  · exact sameEnds_of_depths fun depth => filter_alike hm hc hne hf hx h depth l l₁ l₂ l₃ l₄ l₅

/-- The Booleans that two texts name, and the texts that name true ones. -/
theorem natives_agree_words :
    wordsMachine.Ranged ∧ wordsMachine.extent.HasContext beside ∧
      EndAlike (Failing words) wordsMachine
        (run (hostWith []) 20 (.apply beside.site (.native .fmap) [.native .parseBool, words])
          wordsMachine)
        (run (hostWith []) 20 (.eval beside (.expr
          (mapping nowhere nowhere nowhere nowhere nowhere "parseBool" "x" "xs"))) wordsMachine) ∧
      EndAlike (Failing words) wordsMachine
        (run (hostWith []) 20 (.apply beside.site (.native .filter) [.native .parseBool, words])
          wordsMachine)
        (run (hostWith []) 20 (.eval beside (.expr
          (selecting nowhere nowhere nowhere nowhere nowhere nowhere "parseBool" "x" "xs")))
          wordsMachine) := by
  have hne : ("x" : Ident) ≠ "parseBool" := by decide
  have hf : meaning beside "parseBool" wordsMachine = .ok (.native .parseBool) := by rfl
  have hx : meaning beside "xs" wordsMachine = .ok words := by rfl
  obtain ⟨hfmap, hfilter⟩ := (natives_agree (hostWith [])).1 wordsMachine beside ranged_wordsMachine
    hasContext_beside "parseBool" "x" "xs" _ _ hne hf hx nowhere nowhere nowhere nowhere nowhere
    nowhere
  have hends : ∀ {r : Outcome}, endsWith (fun _ => true) r = true → ¬ TooDeep r :=
    not_tooDeep_of_endsWith
  exact ⟨ranged_wordsMachine, hasContext_beside,
    hfmap 20 20 (hends (by decide +kernel)) (hends (by decide +kernel)),
    hfilter 20 20 (hends (by decide +kernel)) (hends (by decide +kernel))⟩

end Layout

end ModuleScript
