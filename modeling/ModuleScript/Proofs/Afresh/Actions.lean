import ModuleScript.Proofs.Afresh.Gapped
import ModuleScript.Proofs.Names

/-!
# Actions across a gap

Every action of evaluation, done at corresponding places of two machines that differ by a gap, leaves
them so, with results that correspond or with the same failure.
-/

set_option autoImplicit false

namespace ModuleScript

open Eval

/-- What a name stands for at corresponding places. -/
structure Resolution.Gapped (g : Gaps) (r r' : Resolution) : Prop where
  slot : g.like.Slots r.slot r'.slot
  frame : r.frame = g.frames.past r'.frame
  owner : r.owner = r'.owner.map g.records.past
  visibility : r.visibility = r'.visibility

namespace Gaps

/-- Two runs on machines that differ by a gap. -/
abbrev worlds (g : Gaps) : Worlds where
  World := Unit
  Later _ _ := True
  later_refl _ := trivial
  later_trans _ _ := trivial
  Machines _ m n := m.Gapped g n

variable {g : Gaps} {w : Unit} {m n : Machine} {c : Context} {x : Ident} {v v' : Value}

/-- Values that correspond, in any world. -/
abbrev Values (g : Gaps) (_ : Unit) : Value → Value → Prop := g.like.Matches

abbrev Done (_ : Unit) (_ _ : PUnit) : Prop := True

/-! ## Names -/

theorem lookupIn_gapped (h : m.Gapped g n) (x : Ident) (i : FrameId) :
    Option.Rel (Resolution.Gapped g) (m.lookupIn x (g.frames.past i)) (n.lookupIn x i) := by
  have hi := h.frame i
  unfold Machine.lookupIn
  dsimp only
  rw [hi.record]
  have hplain : Option.Rel (Resolution.Gapped g)
      (((m.frame (g.frames.past i)).bindings.get? x).map fun s =>
        ⟨s, g.frames.past i, none, .isPublic⟩)
      (((n.frame i).bindings.get? x).map fun s => ⟨s, i, none, .isPublic⟩) := by
    have hb := hi.bindings.get? x
    generalize (m.frame (g.frames.past i)).bindings.get? x = s, (n.frame i).bindings.get? x = s' at hb
    cases hb with
    | none => exact .none
    | some hs => exact .some ⟨hs, rfl, rfl, rfl⟩
  cases (n.frame i).record with
  | none => exact hplain
  | some r =>
    have hmember := (h.record r).member? x
    simp only [Option.map_some, Option.bind_some]
    generalize (m.record (g.records.past r)).member? x = p, (n.record r).member? x = q at hmember
    cases hmember with
    | none => exact hplain
    | some hpq => exact .some ⟨hpq.slot, rfl, rfl, hpq.visibility⟩

theorem lookup_gapped (h : m.Gapped g n) (s : Scope) (x : Ident) :
    Option.Rel (Resolution.Gapped g) (m.lookup (s.past g.frames) x) (n.lookup s x) := by
  unfold Machine.lookup
  rw [Scope.chain_past]
  induction s.chain with
  | nil => exact .none
  | cons i rest ih =>
    rw [List.map_cons, List.findSome?_cons, List.findSome?_cons]
    have hi := lookupIn_gapped h x i
    generalize m.lookupIn x (g.frames.past i) = r, n.lookupIn x i = r' at hi
    cases hi with
    | none => exact ih
    | some hr => exact .some hr

/-- A name is resolved at corresponding places, to values that correspond. -/
abbrev Resolved (g : Gaps) (_ : Unit) (r r' : Resolution × Value) : Prop :=
  r.1.Gapped g r'.1 ∧ g.like.Matches r.2 r'.2

theorem resolve_agrees (c : Context) (x : Ident) :
    g.worlds.Agree w g.Resolved (resolve (c.past g) x) (resolve c x) := by
  refine Worlds.agree_get fun m n h => ?_
  have hl := lookup_gapped h c.scope x
  have hscope : (c.past g).scope = c.scope.past g.frames := rfl
  rw [hscope]
  generalize m.lookup (c.scope.past g.frames) x = found, n.lookup c.scope x = found' at hl
  cases hl with
  | none => exact Worlds.agree_because _ m n h
  | @some r r' hr =>
    have howner : (r.owner.map fun i => (m.record i).path) =
        r'.owner.map fun i => (n.record i).path := by
      rw [hr.owner]
      cases r'.owner with
      | none => rfl
      | some i => exact congrArg some (h.record i).path
    dsimp only
    rw [howner, hr.visibility]
    have hread := Likeness.readSlot_agrees (S := g.worlds) (w := w) c.module
      (r'.owner.map fun i => (n.record i).path) r'.visibility x hr.slot
    exact hread.bind (fun _ _ _ _ hv => Worlds.agree_pure ⟨hr, hv⟩) m n h

theorem follow_agrees (c : Context) (walked : Text) (names : List Ident)
    (hv : g.like.Matches v v') :
    g.worlds.Agree w g.Values (follow (c.past g) walked v names)
      (follow c walked v' names) := by
  have hmodule : ∀ {m n : Machine} {i j : RecordId} {p q : ModulePath}, m.Gapped g n →
      g.like.module i p j q →
        p = q ∧ ∀ x, Option.Rel g.like.Members ((m.record i).member? x) ((n.record j).member? x) := by
    rintro m n _ j _ q h ⟨rfl, rfl⟩
    exact ⟨rfl, (h.record j).member?⟩
  have hplace : (c.past g).module = c.module := rfl
  exact Likeness.follow_agrees (S := g.worlds) (w := w) (fun _ hv => hv) hmodule hplace walked names hv

theorem dotted_agrees (c : Context) (names : List Ident) :
    g.worlds.Agree w g.Values (dotted (c.past g) names) (dotted c names) := by
  cases names with
  | nil => exact Worlds.agree_pure (.plain rfl)
  | cons x rest =>
    exact (resolve_agrees c x).bind fun _ _ _ _ hr => follow_agrees c x rest hr.2

/-! ## Bindings and functions -/

theorem frame_gapped {f f' : Frame} (hf : g.like.Frames f f') : f.Gapped g f' :=
  ⟨hf.name, by rw [hf.record, hf.record']; rfl, hf.bindings.slots⟩

/-- The contexts of corresponding places. -/
abbrev Places (g : Gaps) (_ : Unit) (d d' : Context) : Prop := d = d'.past g

theorem enter_agrees (c : Context) {f f' : Frame} (hf : f.Gapped g f') :
    g.worlds.Agree w g.Places ((c.past g).enter f) (c.enter f') := by
  intro m n h
  refine Worlds.ends_ok (h.pushFrame hf) ?_
  rw [← h.frames.past_size]
  rfl

theorem define_agrees (c : Context) (x : Ident) (hv : g.like.Matches v v') (isPublic : Bool) :
    g.worlds.Agree w Done (define (c.past g) x v isPublic) (define c x v' isPublic) := by
  refine Worlds.agree_modify fun m n h => ?_
  have hrecord := (h.frame c.scope.frame).record
  change (m.frame (c.past g).scope.frame).record = _ at hrecord
  rw [hrecord]
  cases (n.frame c.scope.frame).record with
  | some i => exact h.defineMember i x (.value hv) _
  | none =>
    have hset := h.setSlot c.scope.frame x (.value hv)
    have hown : (c.past g).scope.frame = (c.past g).site.globals ↔
        c.scope.frame = c.site.globals := Gap.past_inj
    simp only [hown, Option.map_none]
    split
    · exact hset.setExport c.site.exports x hv
    · exact hset

theorem newClosure_agrees (name : Option Ident) (vs : List Variant) :
    g.worlds.Agree w g.Values (newClosure name (vs.map (Variant.past g.frames)))
      (newClosure name vs) := by
  intro m n h
  refine Worlds.ends_ok h.newFunction (.closure ?_)
  have hid := h.functions.past_size
  change _ = Closure.past g ⟨n.functions, name, vs⟩
  rw [Closure.past, g.ordered _ h.functions.start_le, hid]

theorem replace_agrees (c : Context) {r r' : Resolution} (hr : r.Gapped g r') (x : Ident)
    (hv : g.like.Matches v v') :
    g.worlds.Agree w Done (replace (c.past g) r x v) (replace c r' x v') := by
  refine Worlds.agree_modify fun m n h => ?_
  rw [hr.owner, hr.frame]
  cases r'.owner with
  | some i => exact h.defineMember i x (.value hv) .isPrivate
  | none =>
    have hset := h.setSlot r'.frame x (.value hv)
    have hown : g.frames.past r'.frame = (c.past g).site.globals ↔
        r'.frame = c.site.globals := Gap.past_inj
    have hhas : ((m.setSlot (g.frames.past r'.frame) x (.value v)).exportsOf
          (c.past g).site.exports).has x =
        ((n.setSlot r'.frame x (.value v')).exportsOf c.site.exports).has x :=
      (hset.exported c.site.exports).has_eq x
    simp only [hown, hhas, Option.map_none]
    split
    · exact hset.setExport c.site.exports x hv
    · exact hset

theorem vary_agrees (c : Context) (x : Ident) (u : Variant) :
    g.worlds.Agree w g.Values (vary (c.past g) x (u.past g.frames)) (vary c x u) := by
  refine (resolve_agrees c x).bind ?_
  rintro _ ⟨r, v⟩ ⟨r', v'⟩ - ⟨hr, hv⟩
  dsimp only at hr hv ⊢
  cases hv with
  | @plain v hplain =>
    cases v with
    | list | closure | module => cases hplain
    | _ => exact Worlds.agree_because _
  | list _ => exact Worlds.agree_because _
  | module _ => exact Worlds.agree_because _
  | @closure f f' hf =>
    obtain rfl := hf
    dsimp only
    have harity : (u.past g.frames).arity = u.arity := rfl
    have hsome : ((f'.past g).variant? u.arity).isSome = (f'.variant? u.arity).isSome := by
      rw [Closure.variant?_past, Option.isSome_map]
    rw [harity, hsome]
    split
    · exact Worlds.agree_because _
    · have hvariants : (f'.past g).variants ++ [u.past g.frames] =
          (f'.variants ++ [u]).map (Variant.past g.frames) := by
        rw [List.map_append]
        rfl
      rw [hvariants]
      refine (newClosure_agrees (f'.past g).name (f'.variants ++ [u])).bind fun _ _ _ _ hnew => ?_
      exact (replace_agrees c hr x hnew).bind fun _ _ _ _ _ => Worlds.agree_pure hnew

/-! ## Modules -/

/-- A module registered at corresponding places. -/
structure Registered (g : Gaps) (r r' : RecordId × ModulePath × Bool) : Prop where
  id : r.1 = g.records.past r'.1
  rest : r.2 = r'.2

theorem pathFor_past (h : m.Gapped g n) (c : Context) (x : Ident) :
    m.pathFor (c.past g) x = n.pathFor c x := by
  have hrecord : (m.frame (c.past g).scope.frame).record =
      (n.frame c.scope.frame).record.map g.records.past := (h.frame c.scope.frame).record
  unfold Machine.pathFor
  rw [hrecord]
  cases (n.frame c.scope.frame).record with
  | none => rfl
  | some i => exact congrArg (ModulePath.child · x) (h.record i).path

/-- A module that both runs know of or neither is registered in both or refused in both. -/
theorem register_ends (h : m.Gapped g n) (c : Context) (x : Ident)
    (hp : ¬ g.modules (n.pathFor c x)) :
    g.worlds.Ends w (fun _ => g.Registered) (Eval.register (c.past g) x m)
      (Eval.register c x n) := by
  have hrecord : (m.frame (c.past g).scope.frame).record =
      (n.frame c.scope.frame).record.map g.records.past := (h.frame c.scope.frame).record
  have houtermost : (m.frame (c.past g).scope.frame).record.isNone =
      (n.frame c.scope.frame).record.isNone := by
    rw [hrecord, Option.isNone_map]
  have hpath := pathFor_past h c x
  have hmodule := h.registered (n.pathFor c x) hp
  cases hfound : n.module? (n.pathFor c x) with
  | some i =>
    rw [hfound] at hmodule
    have hm := Machine.declareModule_of_some hmodule (m.frame (c.past g).scope.frame).record
    have hn := Machine.declareModule_of_some hfound (n.frame c.scope.frame).record
    rw [← hpath] at hm
    rw [Machine.register_of_refused hm, Machine.register_of_refused hn, hpath]
    exact Worlds.ends_error h _
  | none =>
    rw [hfound] at hmodule
    have hm := Machine.declareModule_of_none hmodule (m.frame (c.past g).scope.frame).record
    have hn := Machine.declareModule_of_none hfound (n.frame c.scope.frame).record
    rw [← hpath] at hm
    rw [Machine.register_of_path hm, Machine.register_of_path hn, hpath]
    exact Worlds.ends_ok (h.pushRecord _ _ _ hp hfound) ⟨h.records.past_size.symm, by rw [houtermost]⟩

/-- A name is declared in a tier. -/
abbrev declareName (i : RecordId) (q : Ident × Visibility) : Eval PUnit :=
  change fun m => ((m.record i).declare q.1 q.2).map (m.setRecord i)

abbrev declareNames (i : RecordId) (names : List (Ident × Visibility)) : Eval PUnit :=
  names.forM (declareName i)

theorem declareNames_agrees (i : RecordId) (names : List (Ident × Visibility)) :
    g.worlds.Agree w Done (declareNames (g.records.past i) names) (declareNames i names) := by
  induction names with
  | nil => exact Worlds.agree_pure trivial
  | cons q rest ih =>
    refine (Worlds.agree_change fun m n h => ?_).bind fun _ _ _ _ _ => ih
    have hd := (h.record i).declare q.1 q.2
    generalize (m.record (g.records.past i)).declare q.1 q.2 = r, (n.record i).declare q.1 q.2 = r'
      at hd
    cases hd with
    | ok hr => exact .ok (h.setRecord i hr)
    | error e => exact .error e

theorem declareMembers_agrees {i j : RecordId} (hi : i = g.records.past j) (body : List Stmt) :
    g.worlds.Agree w Done (declareMembers i body) (declareMembers j body) := by
  subst hi
  exact declareNames_agrees j (body.filterMap declared?)

/-- What a name meant before, at corresponding places. -/
structure Before (g : Gaps) (old old' : Previous) : Prop where
  slot : Option.Rel g.like.Slots old.slot old'.slot
  exported : Option.Rel g.like.Matches old.exported old'.exported

theorem previous_before (h : m.Gapped g n) (c : Context) (x : Ident) :
    g.Before (previous (c.past g) x m) (previous c x n) :=
  ⟨(h.frame c.scope.frame).bindings.get? x, (h.exported c.site.exports).get? x⟩

/-- A module opened at corresponding places. -/
structure Opens (g : Gaps) (o o' : Opened) : Prop where
  id : o.id = g.records.past o'.id
  path : o.path = o'.path
  old : g.Before o.old o'.old
  inner : o.inner = o'.inner.past g

theorem openModule_ends (h : m.Gapped g n) (c : Context) (isPublic : Bool) (x : Ident)
    (hp : ¬ g.modules (n.pathFor c x)) :
    g.worlds.Ends w (fun _ => g.Opens) (openModule (c.past g) isPublic x m)
      (openModule c isPublic x n) := by
  refine Worlds.Ends.bind (register_ends h c x hp) ?_
  rintro _ ⟨i, p, isOutermost⟩ ⟨j, p', isOutermost'⟩ - ⟨hi, hrest⟩
  dsimp only at hi hrest ⊢
  subst hi
  cases hrest
  refine Worlds.agree_get fun m n h => ?_
  have hold := previous_before h c x
  have hmodule : g.like.Matches (.module (g.records.past j) p) (.module j p) := .module ⟨rfl, rfl⟩
  have hframe : Frame.Gapped g { name := "mod " ++ p.text, record := some (g.records.past j) }
      { name := "mod " ++ p.text, record := some j } := ⟨rfl, rfl, .nil⟩
  refine (define_agrees (w := w) c x hmodule _).bind (fun _ _ _ _ _ => ?_) m n h
  refine (enter_agrees c hframe).bind fun _ d d' _ hd => ?_
  have hd : d = d'.past g := hd
  subst hd
  exact Worlds.agree_pure ⟨rfl, rfl, hold, rfl⟩

theorem restore_gapped (h : m.Gapped g n) (c : Context) (x : Ident) {old old' : Previous}
    (hold : g.Before old old') :
    (restore (c.past g) x old m).Gapped g (restore c x old' n) := by
  have hrecord : (m.frame (c.past g).scope.frame).record =
      (n.frame c.scope.frame).record.map g.records.past := (h.frame c.scope.frame).record
  unfold restore
  rw [hrecord]
  cases (n.frame c.scope.frame).record with
  | some i => exact h.defineMember i x .pending .isPrivate
  | none =>
    have hown : (c.past g).scope.frame = (c.past g).site.globals ↔
        c.scope.frame = c.site.globals := Gap.past_inj
    obtain ⟨slot, exported⟩ := old
    obtain ⟨slot', exported'⟩ := old'
    obtain ⟨hslot, hexported⟩ := hold
    dsimp only at hslot hexported
    have hexport : ∀ {k k' : Machine}, k.Gapped g k' →
        (k.eraseExport (c.past g).site.exports x).Gapped g (k'.eraseExport c.site.exports x) ∧
          ∀ {v v'}, g.like.Matches v v' →
            (k.setExport (c.past g).site.exports x v).Gapped g
              (k'.setExport c.site.exports x v') :=
      fun hk => ⟨hk.eraseExport c.site.exports x, hk.setExport c.site.exports x⟩
    simp only [hown, Option.map_none]
    cases hslot with
    | none =>
      have hset := h.eraseSlot c.scope.frame x
      split
      · cases hexported with
        | none => exact (hexport hset).1
        | some hv => exact (hexport hset).2 hv
      · exact hset
    | some hs =>
      have hset := h.setSlot c.scope.frame x hs
      split
      · cases hexported with
        | none => exact (hexport hset).1
        | some hv => exact (hexport hset).2 hv
      · exact hset

/-! ## Files -/

/-- The sites of corresponding sources. -/
abbrev Sources (g : Gaps) (_ : Unit) (s s' : Site) : Prop := s = s'.past g

theorem newSite_agrees (source : Text) (globals : FrameId) :
    g.worlds.Agree w g.Sources (newSite source (g.frames.past globals)) (newSite source globals) := by
  intro m n h
  refine Worlds.ends_ok h.pushExports ?_
  change Site.mk _ _ _ = Site.mk _ _ _
  rw [← h.exports.past_size]

theorem openFile_agrees (p : Path) : g.worlds.Agree w g.Sources (openFile p) (openFile p) := by
  have hframe : Frame.Gapped g { name := "global " ++ p.name } { name := "global " ++ p.name } :=
    ⟨rfl, rfl, .nil⟩
  have hnew : g.worlds.Agree w (fun _ i j => i = g.frames.past j)
      (newFrame { name := "global " ++ p.name }) (newFrame { name := "global " ++ p.name }) :=
    fun m n h => Worlds.ends_ok (h.pushFrame hframe) h.frames.past_size.symm
  refine hnew.bind fun _ i j _ hi => ?_
  subst hi
  exact newSite_agrees p.text j

end Gaps

end ModuleScript
