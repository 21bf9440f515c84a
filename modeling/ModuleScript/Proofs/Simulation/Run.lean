import ModuleScript.Proofs.Loading
import ModuleScript.Proofs.Names
import ModuleScript.Proofs.Simulation.Expressions

/-!
# Runs keep a simulation

Where all the tasks that files, modules and statements lead to agree, the files, modules and
statements do. So a step keeps the agreement of the tasks below it, and by induction on the depth
whole runs agree.
-/

set_option autoImplicit false

namespace ModuleScript

open Eval

/-! ## Imports -/

theorem Actions.evaluateFile_agrees {h : Host} {S : Actions} {self self' : Step} {w : S.World}
    {path : Path} (he : S.Evaluates h path) (hf : S.Follows self self') :
    S.Agree w (fun w' => (S.like w').Exported) (evaluateFile h self path)
      (evaluateFile h self' path) := by
  refine Worlds.agree_lift_same fun source hs => ?_
  refine Actions.asking_agrees hf rfl fun w₀ _ => ?_
  refine Worlds.agree_lift_same fun program hp => ?_
  refine (he.file (ok_of_lift hs) hp).bind fun w₁ s s' hl ⟨hsite, hd⟩ => ?_
  have hall := List.forall₂_same.mpr hd
  refine (Actions.decls_agree hf hall).bind fun w₂ _ _ hl' _ => Worlds.agree_get fun m n hm => ?_
  have hsite₂ := S.sites_later hl' hsite
  exact .ok (S.later_refl w₂) hm (he.exports hsite₂ hm)

namespace Simulation

variable {h : Host} {S : Simulation h} {self self' : Step} {w : S.World} {c c' : Context}

theorem evaluates (S : Simulation h) {path : Path} (hp : h.disk.LeadsTo path) :
    S.Evaluates h path :=
  ⟨S.file hp, S.exports⟩

/-- A file that may be looked for has been loaded in both runs or in neither. -/
theorem load_ends (hf : S.Follows self self') (relative importer : Text) {m n : Machine}
    (hm : S.Machines w m n)
    (hp : ∀ path, h.disk.resolveImport relative importer = .ok path → S.Seeks path) :
    S.Ends w (fun w' => (S.like w').Exported) (load h self relative importer m)
      (load h self' relative importer n) := by
  refine Worlds.ends_lift_same hm fun path hr => Worlds.ends_get ?_
  have hloaded := S.loaded path (hp path (ok_of_lift hr)) hm
  generalize m.loaded? path = e, n.loaded? path = e' at hloaded
  cases hloaded with
  | some he => exact .ok (S.later_refl w) hm he
  | none =>
    have hfresh : S.Agree w (fun w' => (S.like w').Exported)
        (loadFresh h self path) (loadFresh h self' path) := by
      refine (S.begin_loading path).bind fun w₁ _ _ _ _ => ?_
      have hleads : h.disk.LeadsTo path := ⟨relative, importer, ok_of_lift hr⟩
      have hfile := (Actions.evaluateFile_agrees (S.evaluates hleads) hf (w := w₁)).mending
        fun _ _ _ _ hm => S.abort_loading path hm
      refine hfile.bind fun w₂ _ _ _ he => ?_
      refine (S.finish_loading path he).bind fun w₃ _ _ hl _ => ?_
      exact Worlds.agree_pure (Actions.exported_later hl he)
    refine (Worlds.agree_lift_same fun isFile _ => ?_) m n hm
    cases isFile with
    | false => exact Worlds.agree_because _
    | true => exact hfresh

theorem loads (hs : ∀ path, S.Seeks path) (hf : S.Follows self self') : S.Loads h self self' := by
  intro w c c' l names path hc m n hm
  rw [S.site_source (S.code_site hc)]
  exact load_ends hf path c'.site.source hm fun p _ => hs p

end Simulation

namespace Actions

variable {h : Host} {S : Actions} {self self' : Step} {w : S.World} {c c' : Context}
  {m n : Machine}

theorem bindImports_agree {s : Stmt} {names : List Ident} (path : Text) {e e' : Exports}
    (hd : S.Defines c s) (hc : S.Code w c c' s) (hn : ∀ n ∈ names, (n, false) ∈ s.binds)
    (he : (S.like w).Exported e e') :
    S.Agree w (fun _ _ _ => True) (bindImports c path e names) (bindImports c' path e' names) := by
  induction names generalizing w with
  | nil => exact Worlds.agree_pure trivial
  | cons n rest ih =>
    unfold bindImports
    have hv := he.get? n
    generalize e.get? n = v, e'.get? n = v' at hv
    cases hv with
    | none => exact Worlds.agree_because _
    | some hv =>
      refine (S.define hd hc (hn n (.head _)) hv).bind fun w₁ _ _ hl _ => ?_
      exact ih (S.code_later hl hc) (fun x hx => hn x (.tail _ hx)) (exported_later hl he)

theorem imports_ends {l : Location} {names : List Ident} {path : Text}
    (hd : S.Defines c (.imports l names path)) (hc : S.Code w c c' (.imports l names path))
    (hl : S.Ends w (fun w' => (S.like w').Exported) (load h self path c.site.source m)
      (load h self' path c'.site.source n)) :
    S.Ends w S.Values (imports h self c names path m) (imports h self' c' names path n) := by
  refine hl.bind fun w₁ _ _ hw he => ?_
  have hn : ∀ n ∈ names, (n, false) ∈ (Stmt.imports l names path).binds :=
    fun n hn => List.mem_map_of_mem hn
  refine (bindImports_agree path hd (S.code_later hw hc) hn he).bind fun _ _ _ _ _ => ?_
  exact Worlds.agree_pure (.plain rfl)

/-! ## Modules and statements -/

theorem declareModule_ends (hf : S.Follows self self') {isPublic : Bool} {x : Ident}
    {body body' : List Stmt}
    (ho : S.Ends w (fun w' o o' => S.Body w' c x body o c' body' o') (openModule c isPublic x m)
      (openModule c' isPublic x n)) :
    S.Ends w S.Values (declareModule self c isPublic x body m)
      (declareModule self' c' isPublic x body' n) := by
  refine ho.bind fun w₁ o o' _ hb => ?_
  refine Worlds.Agree.mending ?_ fun w₂ m m' hl hm => S.body_restore (S.body_later hl hb) hm
  refine (S.body_members hb).bind fun w₂ _ _ hl hstmts => ?_
  refine (decls_agree hf hstmts).bind fun w₃ _ _ hl' _ => ?_
  exact Worlds.agree_pure (.module (S.body_module (S.body_later (S.later_trans hl hl') hb)))

/-- Whatever the statement is, what it does itself that is not alike in all runs is so on these
machines: it binds names, adds a variant, opens a module or loads a file. -/
structure Deeds (S : Actions) (h : Host) (next next' : Step) (w : S.World) (c c' : Context)
    (s : Stmt) (m n : Machine) : Prop where
  defines : S.Defines c s
  vary : ∀ {l x l' ps body}, s = .variation l x l' ps body →
    S.Ends w S.Values (Eval.vary c x (variantHere c ps body) m)
      (Eval.vary c' x (variantHere c' ps body) n)
  opens : ∀ {l isPublic x body}, s = .module l isPublic x body →
    S.Ends w (fun w' o o' => S.Body w' c x body o c' body o') (openModule c isPublic x m)
      (openModule c' isPublic x n)
  loads : ∀ {l names path}, s = .imports l names path →
    S.Ends w (fun w' => (S.like w').Exported) (load h next path c.site.source m)
      (load h next' path c'.site.source n)

theorem deeds (hl : S.Loads h self self') {s : Stmt} (hc : S.Code w c c' s)
    (hp : S.Permits c s) (hm : S.Machines w m n) : S.Deeds h self self' w c c' s m n where
  defines := hp.defines
  vary := by
    rintro l x l' ps body rfl
    rcases hp.varies with hv | hv
    · exact S.vary hv hc m n hm
    · cases hv
  opens := by
    rintro l isPublic x body rfl
    rcases hp.declares with hd | hd
    · exact S.module hd hc m n hm
    · cases hd
  loads := by
    rintro l names path rfl
    exact hl hc m n hm

theorem stmt_ends (hf : S.Follows self self') {s : Stmt} (hc : S.Code w c c' s)
    (hd : S.Deeds h self self' w c c' s m n) (hm : S.Machines w m n) :
    S.Ends w S.Values (stmt h self c s m) (stmt h self' c' s n) := by
  cases s with
  | expr e => exact expr_agrees hf hd.defines hc m n hm
  | publicBinding l x initializer =>
    have hi := S.code_part hc (t := .expr initializer) (.head _)
    refine Worlds.Ends.bind (hf.code hi m n hm) fun w₁ _ _ hl hx => ?_
    have hbinds : (x, true) ∈ (Stmt.publicBinding l x initializer).binds := .head _
    have hdefine := S.define hd.defines (S.code_later hl hc) hbinds hx
    exact hdefine.bind fun _ _ _ hl' _ => Worlds.agree_pure (values_later hl' hx)
  | variation l x l' params body => exact hd.vary rfl
  | module l isPublic x body => exact declareModule_ends hf (hd.opens rfl)
  | imports l names path => exact imports_ends hd.defines hc (hd.loads rfl)

/-! ## Steps and runs -/

/-- What the steps lead imports to load corresponds, below whatever work. -/
abbrev LoadsBelow (S : Actions) (h : Host) (self self' : Step) : Prop :=
  ∀ o, S.Loads h (self.below h o) (self'.below h o)

theorem code_ends (hf : S.Follows self self') {s : Stmt} (hc : S.Code w c c' s)
    (hd : S.Deeds h (self.below h (.node s.construct s.location))
      (self'.below h (.node s.construct s.location)) w c c' s m n) (hm : S.Machines w m n) :
    S.Ends w S.Values (step h self (.eval c s) m) (step h self' (.eval c' s) n) :=
  (stmt_ends (hf.below h _) hc hd hm).located rfl rfl h s.location

theorem code_agrees (hf : S.Follows self self') (hl : S.LoadsBelow h self self') {s : Stmt}
    (hc : S.Code w c c' s) (hp : S.Permits c s) :
    S.Agree w S.Values (step h self (.eval c s)) (step h self' (.eval c' s)) :=
  fun _ _ hm => code_ends hf hc (deeds (hl _) hc hp hm) hm

theorem decl_agrees (hf : S.Follows self self') (hl : S.LoadsBelow h self self') {s s' : Stmt}
    (hd : S.Decl w c s c' s') (hp : S.Permits c s)
    (ha : S.Apart w c s c' s' → S.Agree w (fun w' a b => S.Seen c → S.Values w' a b)
      (step h self (.eval c s)) (step h self' (.eval c' s'))) :
    S.Agree w (fun w' a b => S.Seen c → S.Values w' a b) (step h self (.eval c s))
      (step h self' (.eval c' s')) := by
  cases S.declared hd with
  | same hc => exact (code_agrees hf hl hc hp).imp fun _ _ _ _ hx _ => hx
  | apart hs => exact ha hs
  | @module _ l isPublic n body body' ho =>
    have hmodule : S.Agree w S.Values
        (declareModule (self.below h (.node .module l)) c isPublic n body)
        (declareModule (self'.below h (.node .module l)) c' isPublic n body') :=
      fun m m' hm => declareModule_ends (hf.below h _) (ho m m' hm)
    exact (hmodule.located h l).imp fun _ _ _ _ hx _ => hx

theorem ask_agrees (h : Host) (self self' : Step) (d : Demand) :
    S.Agree w S.Values (step h self (.ask d)) (step h self' (.ask d)) :=
  Worlds.agree_lift_same fun _ _ => Worlds.agree_pure (.plain rfl)

theorem apply_step_agrees (hf : S.Follows self self') {s s' : Site} {f f' : Value}
    {args args' : List Value} (hs : S.Sites w s s') (hx : S.Values w f f')
    (ha : List.Forall₂ (S.Values w) args args') :
    S.Agree w S.Values (step h self (.apply s f args)) (step h self' (.apply s' f' args')) := by
  have hwork : (Task.apply s f args).work = (Task.apply s' f' args').work :=
    congrArg Work.apply ha.length_eq
  unfold step
  rw [← hwork]
  exact applyValue_agrees (hf.below h _) hs hx ha

theorem step_follows (hf : S.Follows self self') (hl : S.LoadsBelow h self self')
    (hp : ∀ c s, S.Permits c s)
    (ha : ∀ {w c s c' s'}, S.Apart w c s c' s' →
      S.Agree w (fun w' a b => S.Seen c → S.Values w' a b) (step h self (.eval c s))
        (step h self' (.eval c' s'))) :
    S.Follows (step h self) (step h self') := by
  have hattends : S.Attends (step h self) (step h self') :=
    ⟨fun hc => code_agrees hf hl hc (hp _ _), fun hd => decl_agrees hf hl hd (hp _ _) ha,
      fun hs hx has => apply_step_agrees hf hs hx has, fun d => ask_agrees h self self' d⟩
  exact hattends.follows (fun _ _ => ⟨rfl, rfl⟩) hf

end Actions

/-- Runs agree where the declarations that are dealt with apart do. -/
theorem Simulation.run_follows {h : Host} {S : Simulation h} (hp : ∀ c s, S.Permits c s)
    (hs : ∀ path, S.Seeks path)
    (ha : ∀ depth, S.Follows (run h depth) (run h depth) → ∀ {w c s c' s'}, S.Apart w c s c' s' →
      S.Agree w (fun w' a b => S.Seen c → S.Values w' a b) (run h (depth + 1) (.eval c s))
        (run h (depth + 1) (.eval c' s')))
    (depth : Nat) : S.Follows (run h depth) (run h depth) := by
  induction depth with
  | zero => exact Actions.follows_tooDeep _ _ (fun _ => rfl) fun _ => rfl
  | succ depth ih =>
    exact Actions.step_follows ih (fun o => Simulation.loads hs (ih.below h o)) hp (ha depth ih)

end ModuleScript
