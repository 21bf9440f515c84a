import ModuleScript.Proofs.Privacy.Opening

/-!
# Runs under a discipline

The actions of evaluation together: two runs of the same code, or of declarations that differ in the
literals of secret members, on machines that are alike stay alike to the end.
-/

set_option autoImplicit false

namespace ModuleScript.Discipline

open Eval

/-- The programs of the files on the host's disk keep the discipline. -/
def Covers (D : Discipline) (h : Host) : Prop :=
  ∀ p t program, h.disk.readText p = .ok t → h.read p.text t = .ok program →
    D.DeclareAll p.text none program program

/-- The literal of a secret member, which may not be the same in both runs. -/
inductive Differs (D : Discipline) (m : Machine) (c : Context) : Stmt → Context → Stmt → Prop where
  | secret {path : ModulePath} {l k : Location} {x : Ident} {a b : Constant} :
      Placed m c → c.module = some path → D.Secret path x →
      Differs D m c (.expr (.binding l x (.constant k a))) c (.expr (.binding l x (.constant k b)))

theorem exported_refl {D : Discipline} {m : Machine} {e : Exports}
    (h : ∀ {x v}, (x, v) ∈ e → D.Valid m v) : (D.like m).Exported e e :=
  Bindings.related_refl fun _ hp => h hp

theorem valid_of_exported {D : Discipline} {m : Machine} {e e' : Exports}
    (h : (D.like m).Exported e e') {x : Ident} {v : Value} (hx : (x, v) ∈ e) : D.Valid m v := by
  induction h with
  | nil => cases hx
  | cons hpq _ ih =>
    rcases List.mem_cons.mp hx with rfl | hx
    · exact valid_left hpq.2
    · exact ih hx

section Rest

variable {D : Discipline} {m n : Machine} (hs : D.Sound m) (ha : D.Alike m n)

include hs ha

theorem readLine_alike :
    ∃ v m' n', readLine m = .ok v m' ∧ readLine n = .ok v n' ∧ D.Moves m n m' n' ∧
      (D.like m').Matches v v := by
  let line : Text := (Text.splitLine m.input).1
  let rest : Text := (Text.splitLine m.input).2
  let v : Value :=
    if line.isEmpty then .unit else .text (Text.dropEndWhile (fun c => c == '\r' || c == '\n') line)
  have hm := moves_rest (f := fun m => { m with input := rest }) hs ha (fun _ _ => rfl) rfl rfl
    rfl rfl
  have hinput : n.input = m.input := ha.same (·.input) fun _ => rfl
  have hread : readLine n = .ok v { n with input := rest } := by
    unfold readLine
    rw [hinput]
  exact ⟨v, _, _, rfl, hread, hm, .plain (Value.isPlain_line _ _)⟩

theorem loaded_alike (p : Path) :
    Option.Rel (D.like m).Exported (m.loaded? p) (n.loaded? p) := by
  have hloaded : n.loaded? p = m.loaded? p := ha.same (·.loaded? p) fun _ => rfl
  rw [hloaded]
  unfold Machine.loaded?
  cases hf : m.loaded.find? (·.1 == p) with
  | none => exact .none
  | some q =>
    refine .some (exported_refl fun hx => ?_)
    exact hs.loaded (List.mem_of_find?_eq_some hf) hx

theorem beginLoading_alike (p : Path) :
    (∃ a b m' n', change (·.beginLoading p) m = .ok a m' ∧
        change (·.beginLoading p) n = .ok b n' ∧ D.Moves m n m' n' ∧ True) ∨
      ∃ f, change (·.beginLoading p) m = .error f m ∧ change (·.beginLoading p) n = .error f n := by
  have hloading : n.loading = m.loading := ha.same (·.loading) fun _ => rfl
  unfold change Machine.beginLoading
  dsimp only
  rw [hloading]
  by_cases hp : p ∈ m.loading
  · rw [if_pos hp, if_pos hp]
    exact .inr ⟨_, rfl, rfl⟩
  · rw [if_neg hp, if_neg hp]
    have hm := moves_rest (f := fun k => { k with loading := m.loading ++ [p] }) hs ha
      (fun _ _ => rfl) rfl rfl rfl rfl
    exact .inl ⟨_, _, _, _, rfl, rfl, hm, trivial⟩

theorem finishLoading_alike (p : Path) {e : Exports} (he : ∀ {x v}, (x, v) ∈ e → D.Valid m v) :
    (∃ a b m' n', change (·.finishLoading p e) m = .ok a m' ∧
        change (·.finishLoading p e) n = .ok b n' ∧ D.Moves m n m' n' ∧ True) ∨
      ∃ f, change (·.finishLoading p e) m = .error f m ∧
        change (·.finishLoading p e) n = .error f n := by
  have hloading : n.loading = m.loading := ha.same (·.loading) fun _ => rfl
  unfold change Machine.finishLoading
  dsimp only
  rw [hloading]
  by_cases hp : p ∈ m.loading
  · rw [if_pos hp, if_pos hp]
    have h₁ := moves_rest (f := fun k => { k with loading := m.loading.erase p }) hs ha
      (fun _ _ => rfl) rfl rfl rfl rfl
    have h₂ := moves_setLoaded h₁.sound h₁.alike p fun hx => like_later h₁.grows (he hx)
    exact .inl ⟨_, _, _, _, rfl, rfl, h₁.trans h₂, trivial⟩
  · rw [if_neg hp, if_neg hp]
    exact .inr ⟨_, rfl, rfl⟩

end Rest

/-- Two runs under a discipline. -/
def simulation (D : Discipline) (h : Host) (hfiles : D.Covers h) : Simulation h where
  toWorlds := D.worlds
  like := D.like
  Sites _ s s' := s = s'
  Code w c c' s := c = c' ∧ s.isModule = false ∧ D.Node c.module s ∧ Good w c
  Decl w c s c' s' := c = c' ∧ Placed w c ∧ D.Declares c.site.source c.module s s'
  Apart := D.Differs
  Body w c x ss o c' ss' o' := c = c' ∧ o = o' ∧ D.Opens w c x ss o ss'
  Seen c := c.module = none
  Defines _ _ := True
  Varies := True
  Declares := True
  Seeks _ := True
  closure_later _ h := h
  module_later hg hm := like_module_later hg hm
  sites_later _ h := h
  code_later hg hc := ⟨hc.1, hc.2.1, hc.2.2.1, hc.2.2.2.later hg⟩
  decl_later hg hd := ⟨hd.1, hd.2.1.later hg, hd.2.2⟩
  body_later hg hb := ⟨hb.1, hb.2.1, hb.2.2.later hg⟩
  site_source hs := congrArg Site.source hs
  code_site hc := congrArg Context.site hc.1
  code_part hc ht :=
    have ht := Stmt.mem_parts_of_inPlace ht
    ⟨hc.1, D.part_isModule hc.2.2.1 ht, D.part hc.2.2.1 ht, hc.2.2.2⟩
  enter := by
    rintro w c _ s f f' ⟨rfl, -, hn, -⟩ - hf
    refine (enter_agrees hf c).imp ?_
    rintro w' d _ - ⟨rfl, hd, -, hg⟩ t ht
    refine ⟨rfl, D.part_isModule hn ht, ?_, hg⟩
    rw [hd]
    exact D.part hn ht
  arities h := by rw [h.1]
  variant := by
    rintro w a _ ⟨rfl, hv⟩ arity
    cases ha : a.variant? arity with
    | none => exact .none
    | some v =>
      refine .some ⟨rfl, rfl, ?_⟩
      rintro s _ f f' rfl hf
      refine (enter_agrees hf _).imp ?_
      rintro w' d _ - ⟨rfl, hd, -, hg⟩
      refine ⟨rfl, rfl, ?_, hg⟩
      rw [hd]
      exact hv v (List.mem_of_find?_eq_some ha)
  name := by
    rintro w c _ l x ⟨rfl, -, hn, -⟩
    have hc : D.Allows c.module x := allows_of_node hn (.head _)
    refine agree_moves_or fun hs n ha => ?_
    rcases resolve_alike hs ha hc with ⟨r, v, he, he', hv, -⟩ | ⟨e, he, he'⟩
    · exact .inl ⟨(r, v), (r, v), w, n, he, he', moves_refl hs ha, hv⟩
    · exact .inr ⟨e, he, he'⟩
  dotted := by
    rintro w c _ l names ⟨rfl, -, hn, -⟩
    have hc : ∀ x ∈ names, D.Allows c.module x := fun x hx => allows_of_node hn hx
    refine agree_moves_or fun hs n ha => ?_
    rcases dotted_alike hs ha hc with ⟨v, he, he', hv⟩ | ⟨e, he, he'⟩
    · exact .inl ⟨v, v, w, n, he, he', moves_refl hs ha, hv⟩
    · exact .inr ⟨e, he, he'⟩
  define := by
    rintro w c _ s x isPublic v v' - ⟨rfl, -, hn, hg⟩ hx hv
    obtain rfl := like_eq hv
    have hc : D.Allows c.module x := allows_of_node hn (Stmt.mem_mentions_of_binds hx)
    refine agree_moves fun hs n ha => ?_
    obtain ⟨m', n', he, he', hm⟩ := define_moves hs ha hg hc hv isPublic
    exact ⟨_, _, m', n', he, he', hm, trivial⟩
  lambda := by
    rintro w c _ l x ps body ⟨rfl, -, hn, -⟩
    refine agree_moves fun hs n ha => ?_
    have hv : ∀ v ∈ [variantHere c ps body], D.Node v.module (.expr v.body) := by
      intro v hv
      rw [List.mem_singleton.mp hv]
      exact D.part hn (.head _)
    obtain ⟨v, m', n', he, he', hm, hvalid, -⟩ := newClosure_moves hs ha x hv
    exact ⟨v, v, m', n', he, he', hm, hvalid⟩
  vary := by
    rintro w c _ l x l' ps body - ⟨rfl, -, hn, -⟩
    exact vary_agrees (allows_of_node hn (.head _)) (D.part hn (.head _))
  module := by
    rintro w c _ l isPublic x body - ⟨rfl, hs, -⟩
    cases hs
  write := by
    intro w t
    refine agree_moves fun hs n ha => ?_
    have hm := moves_rest (f := (·.write t)) hs ha (fun _ _ => rfl) rfl rfl rfl rfl
    exact ⟨_, _, _, _, rfl, rfl, hm, trivial⟩
  readLine := by
    intro w
    refine agree_moves fun hs n ha => ?_
    obtain ⟨v, m', n', he, he', hm, hv⟩ := readLine_alike hs ha
    exact ⟨v, v, m', n', he, he', hm, hv⟩
  apart_work := by
    rintro w c s c' s' ⟨-, -, -⟩
    rfl
  declared := by
    rintro w c s _ s' ⟨rfl, hc, hd⟩
    generalize hcode : c.module = code at hd
    cases hd with
    | node hm hn => exact .same ⟨rfl, hm, hcode ▸ hn, hc.toGood⟩
    | secret hx => exact .apart (.secret hc hcode hx)
    | module hn hb =>
      subst hcode
      have hx := allows_of_node hn (.head _)
      exact .module ((openModule_agrees hc hx hb).imp fun _ _ _ _ ho => ⟨rfl, ho⟩)
  body_module := by
    rintro w c x ss o _ ss' _ ⟨rfl, rfl, ho⟩
    exact ⟨rfl, rfl, ho.size, ho.path⟩
  body_members := by
    rintro w c x ss o _ ss' _ ⟨rfl, rfl, ho⟩
    have hb := ho.body
    rw [ho.module] at hb
    refine (declareMembers_agree ho.size ho.path hb).imp fun w' _ _ hl _ => ?_
    exact ho.body.forall₂.imp fun _ _ hs => ⟨rfl, ho.inner.later hl, hs⟩
  body_restore := by
    rintro w c x ss o _ ss' _ m n ⟨rfl, rfl, ho⟩ ⟨rfl, hs, ha⟩
    have h₁ := moves_rest (f := (·.removeModule o.path)) hs ha (fun _ _ => rfl) rfl rfl rfl rfl
    have h₂ := restore_moves h₁.sound h₁.alike (ho.good.later h₁.grows) ho.allows
      (fun v hv => like_later h₁.grows (ho.slot v hv))
      (fun v hv => like_later h₁.grows (ho.exported v hv))
    exact ⟨_, (h₁.trans h₂).grows, rfl, h₂.sound, h₂.alike⟩
  loaded := by
    rintro w m n p - ⟨rfl, hs, ha⟩
    exact loaded_alike hs ha p
  begin_loading := by
    intro w p
    exact agree_moves_or fun hs n ha => beginLoading_alike hs ha p
  abort_loading := by
    rintro w m n p ⟨rfl, hs, ha⟩
    have hm := moves_rest (f := (·.abortLoading p)) hs ha (fun _ _ => rfl) rfl rfl rfl rfl
    exact ⟨_, hm.grows, rfl, hm.sound, hm.alike⟩
  finish_loading := by
    intro w e e' p he
    have hee : e = e' := he.eq fun _ _ _ => like_eq
    subst hee
    refine agree_moves_or fun hs n ha => ?_
    exact finishLoading_alike hs ha p fun hx => valid_of_exported he hx
  file := by
    intro w p t program _ hr hp
    refine (openFile_agrees p [preludeFrame, builtinsFrame]).imp ?_
    rintro w' s _ - ⟨rfl, hsource, hplaced⟩
    refine ⟨rfl, fun st hst => ⟨rfl, hplaced, ?_⟩⟩
    have hall := (hfiles p t program hr hp).forall₂
    dsimp only [top]
    rw [hsource]
    exact List.forall₂_same.mp hall st hst
  exports := by
    rintro w s _ m n rfl ⟨rfl, hs, ha⟩
    rw [ha.exportsOf]
    exact exported_refl hs.exports

end ModuleScript.Discipline
