import ModuleScript.Proofs.Privacy.Sessions

/-!
# Private literals are not observed

If the code of a module mentions one of its private members nowhere but where the member is bound to
a literal, no run depends on the literal: neither code outside the module nor code of its submodules
can observe it, whatever it does with the module.
-/

set_option autoImplicit false

namespace ModuleScript

open Eval Session

namespace Stmt

/-- Binds the name to another literal, if the statement binds it to one. -/
def rebind (x : Ident) (f : Constant → Constant) : Stmt → Stmt
  | .expr (.binding l n (.constant l' a)) =>
    .expr (.binding l n (.constant l' (if n = x then f a else a)))
  | s => s

def bindsLiteral (x : Ident) (s : Stmt) : Prop :=
  ∃ l l' a, s = .expr (.binding l x (.constant l' a))

mutual

/-- The statement with other literals wherever a body of the module binds the name to one. -/
def mapLiteral (source : Text) (path : ModulePath) (x : Ident) (f : Constant → Constant) :
    Option ModulePath → Stmt → Stmt
  | code, .module l isPublic n body =>
    .module l isPublic n (mapLiterals source path x f (some (.below source code n)) body)
  | code, s => if code = some path then s.rebind x f else s

def mapLiterals (source : Text) (path : ModulePath) (x : Ident) (f : Constant → Constant) :
    Option ModulePath → List Stmt → List Stmt
  | _, [] => []
  | code, s :: ss => mapLiteral source path x f code s :: mapLiterals source path x f code ss

end

end Stmt

/-- The program with this literal wherever a body of the module binds the name to one. -/
def Program.withLiteral (program : Program) (source : Text) (path : ModulePath) (x : Ident)
    (k : Constant) : Program :=
  Stmt.mapLiterals source path x (fun _ => k) none program

/-- No node of the statement that stands in the module mentions the name. -/
def Stmt.Silent (source : Text) (path : ModulePath) (x : Ident) (s : Stmt) : Prop :=
  ∀ t, Within source (some path) s (some path) t → x ∉ t.mentions

/-- The code of the module mentions the name only where its bodies bind it to a literal. The first
part of a dotted name is a mention too: the failure to follow it tells the type of what it holds. -/
def Program.Secludes (program : Program) (source : Text) (path : ModulePath) (x : Ident) : Prop :=
  ∀ code l isPublic n body, LiesIn source program code (.module l isPublic n body) →
    ModulePath.below source code n = path →
    ∀ s ∈ body, s.bindsLiteral x ∨ s.Silent source path x

/-- The member of the module is secret, and code of the module does not mention it. -/
def seclusion (path : ModulePath) (x : Ident) : Discipline where
  Secret p y := p = path ∧ y = x
  Node code s := Orderly s ∧ (code = some path → s.Silent path.source path x)
  part := by
    rintro code s t ⟨ho, hs⟩ ht
    exact ⟨ho.part ht, fun hc u hu => hs hc u (.part ht hu)⟩
  part_isModule hn ht := hn.1.part_isModule ht
  quiet := by
    rintro p s y ⟨-, hs⟩ hy ⟨rfl, rfl⟩
    exact hs rfl s (.refl _ s) hy

namespace Seclusion

variable {source source' : Text} {path : ModulePath} {x : Ident} {code : Option ModulePath}
  {s : Stmt} {f g : Constant → Constant}

/-! ## Lexical facts -/

/-- Where a node stands below a module does not depend on the source. -/
theorem within_source {p : ModulePath} {inner : Option ModulePath} {t : Stmt}
    (h : Within source (some p) s inner t) : Within source' (some p) s inner t := by
  generalize hc : some p = code at h
  induction h generalizing p with
  | refl code s => exact .refl code s
  | part hu _ ih => exact .part hu (ih hc)
  | @member code inner l isPublic n body u t hu _ ih =>
    subst hc
    exact .member hu (ih (p := p.child n) rfl)

/-- Below a module there are only its own nodes and those of its submodules. -/
theorem length_le_of_within {p : ModulePath} {inner : Option ModulePath} {t : Stmt}
    (h : Within source (some p) s inner t) :
    ∃ q, inner = some q ∧ p.names.length ≤ q.names.length := by
  generalize hc : some p = code at h
  induction h generalizing p with
  | refl code s => exact ⟨p, hc.symm, Nat.le_refl _⟩
  | part _ _ ih => exact ih hc
  | @member code inner l isPublic n body u t _ _ ih =>
    subst hc
    obtain ⟨q, hq, hlen⟩ := ih (p := p.child n) rfl
    refine ⟨q, hq, Nat.le_trans ?_ hlen⟩
    simp [ModulePath.child]

theorem silent_module {l : Location} {isPublic : Bool} {n : Ident} {body : List Stmt}
    (hx : x ≠ n) : (Stmt.module l isPublic n body).Silent source path x := by
  intro t ht
  cases ht with
  | refl =>
    intro hm
    exact hx (List.mem_singleton.mp hm)
  | part hu _ => cases hu
  | member _ ht =>
    obtain ⟨q, hq, hlen⟩ := length_le_of_within ht
    cases hq
    simp only [ModulePath.below, ModulePath.child, List.length_append, List.length_singleton] at hlen
    omega

theorem rebind_of_notMem (f : Constant → Constant) (hx : x ∉ s.mentions) : s.rebind x f = s := by
  unfold Stmt.rebind
  split
  · rename_i l n l' a
    have hn : n ≠ x := by
      rintro rfl
      exact hx (.head _)
    rw [if_neg hn]
  · rfl

theorem mapLiteral_of_not_isModule (f : Constant → Constant) (hs : s.isModule = false) :
    s.mapLiteral source path x f code = if code = some path then s.rebind x f else s := by
  cases s <;> first | rfl | cases hs

theorem mem_mapLiterals {ss : List Stmt} {t : Stmt}
    (ht : t ∈ Stmt.mapLiterals source path x f code ss) :
    ∃ s ∈ ss, t = s.mapLiteral source path x f code := by
  induction ss with
  | nil => cases ht
  | cons s ss ih =>
    rcases List.mem_cons.mp ht with rfl | ht
    · exact ⟨s, .head _, rfl⟩
    · obtain ⟨u, hu, rfl⟩ := ih ht
      exact ⟨u, .tail _ hu, rfl⟩

theorem rebind_id : s.rebind x id = s := by
  unfold Stmt.rebind
  split
  · rw [id, ite_self]
  · rfl

mutual

theorem mapLiteral_id : ∀ (code : Option ModulePath) (s : Stmt),
    s.mapLiteral source path x id code = s
  | code, .module l isPublic n body =>
    congrArg (Stmt.module l isPublic n) (mapLiterals_id (some (.below source code n)) body)
  | code, .expr e => by rw [mapLiteral_of_not_isModule id rfl, rebind_id, ite_self]
  | code, .publicBinding l n e => by rw [mapLiteral_of_not_isModule id rfl, rebind_id, ite_self]
  | code, .variation l n l' ps e => by
    rw [mapLiteral_of_not_isModule id rfl, rebind_id, ite_self]
  | code, .imports l ns p => by rw [mapLiteral_of_not_isModule id rfl, rebind_id, ite_self]

theorem mapLiterals_id : ∀ (code : Option ModulePath) (ss : List Stmt),
    Stmt.mapLiterals source path x id code ss = ss
  | _, [] => rfl
  | code, s :: ss => congrArg₂ List.cons (mapLiteral_id code s) (mapLiterals_id code ss)

end

theorem orderly_rebind (f : Constant → Constant) (h : Orderly s) : Orderly (s.rebind x f) := by
  unfold Stmt.rebind
  split
  · exact nodewise_orderly.single rfl rfl nofun (nodewise_orderly.leaf rfl)
  · exact h

theorem orderly_mapLiteral (f : Constant → Constant) (h : Orderly s) :
    ∀ code, Orderly (s.mapLiteral source path x f code) := by
  induction h with
  | @node s hd hp hm _ ihm =>
    intro code
    cases hs : s.isModule with
    | false =>
      rw [mapLiteral_of_not_isModule f hs]
      split
      · exact orderly_rebind f (.node hd hp hm)
      · exact .node hd hp hm
    | true =>
      cases s with
      | module l isPublic n body =>
        refine .node (fun _ ht => by cases ht) (fun _ ht => by cases ht) fun t ht => ?_
        obtain ⟨u, hu, rfl⟩ := mem_mapLiterals ht
        exact ihm u hu _
      | _ => cases hs

/-! ## Two literals -/

/-- What a statement of a module body, or of the top of a program, may be, given where it stands. -/
def Fits (source : Text) (path : ModulePath) (x : Ident) (code : Option ModulePath) (s : Stmt) :
    Prop :=
  (code = some path → s.bindsLiteral x ∨ s.Silent source path x) ∧
    ∀ inner l isPublic n body, Within source code s inner (.module l isPublic n body) →
      ModulePath.below source inner n = path →
      ∀ t ∈ body, t.bindsLiteral x ∨ t.Silent source path x

theorem Fits.member {l : Location} {isPublic : Bool} {n : Ident} {body : List Stmt}
    (h : Fits source path x code (.module l isPublic n body)) (hs : s ∈ body) :
    Fits source path x (some (.below source code n)) s := by
  refine ⟨fun hc => ?_, fun inner l' isPublic' n' body' ht hp => ?_⟩
  · exact h.2 code l isPublic n body (.refl _ _) (Option.some.inj hc) s hs
  · exact h.2 inner l' isPublic' n' body' (.member hs ht) hp

theorem node_of_silent (source : Text) (ho : Orderly s)
    (hs : code = some path → s.Silent source path x) :
    (seclusion path x).Node code s :=
  ⟨ho, fun hc t ht => hs hc t (within_source ht)⟩

theorem declares_leaf (hs : s.isModule = false) (ho : Orderly s) (hf : Fits source path x code s) :
    (seclusion path x).Declares source code (s.mapLiteral source path x f code)
      (s.mapLiteral source path x g code) := by
  rw [mapLiteral_of_not_isModule f hs, mapLiteral_of_not_isModule g hs]
  by_cases hc : code = some path
  · rw [if_pos hc, if_pos hc]
    rcases hf.1 hc with ⟨l, l', a, rfl⟩ | hsilent
    · subst hc
      exact .secret ⟨rfl, rfl⟩
    · have hx := hsilent s (.refl _ s)
      rw [rebind_of_notMem f hx, rebind_of_notMem g hx]
      exact .node hs (node_of_silent source ho fun _ => hsilent)
  · rw [if_neg hc, if_neg hc]
    exact .node hs (node_of_silent source ho fun h => absurd h hc)

mutual

theorem declares_mapLiteral : ∀ (code : Option ModulePath) (s : Stmt), Orderly s →
    Fits source path x code s →
    (seclusion path x).Declares source code (s.mapLiteral source path x f code)
      (s.mapLiteral source path x g code)
  | code, .module l isPublic n body, ho, hf => by
    have hall := declareAll_mapLiterals (some (.below source code n)) body
      (fun t ht => ho.member ht) fun t ht => hf.member ht
    refine .module (node_of_silent source (orderly_mapLiteral f ho code) ?_) hall
    intro hc
    rcases hf.1 hc with ⟨_, _, _, he⟩ | hs
    · cases he
    · refine silent_module fun hx => hs _ (.refl _ _) ?_
      rw [hx]
      exact .head _
  | code, .expr e, ho, hf => declares_leaf rfl ho hf
  | code, .publicBinding l n e, ho, hf => declares_leaf rfl ho hf
  | code, .variation l n l' ps e, ho, hf => declares_leaf rfl ho hf
  | code, .imports l ns p, ho, hf => declares_leaf rfl ho hf

theorem declareAll_mapLiterals : ∀ (code : Option ModulePath) (ss : List Stmt),
    (∀ s ∈ ss, Orderly s) → (∀ s ∈ ss, Fits source path x code s) →
    (seclusion path x).DeclareAll source code (Stmt.mapLiterals source path x f code ss)
      (Stmt.mapLiterals source path x g code ss)
  | _, [], _, _ => .nil
  | code, s :: ss, ho, hf =>
    .cons (declares_mapLiteral code s (ho s (.head _)) (hf s (.head _)))
      (declareAll_mapLiterals code ss (fun t ht => ho t (.tail _ ht)) fun t ht => hf t (.tail _ ht))

end

theorem fits_of_secludes {program : Program} (h : program.Secludes source path x)
    (hs : s ∈ program) : Fits source path x none s := by
  refine ⟨?_, fun inner l isPublic n body ht hp => ?_⟩
  · intro hc
    cases hc
  · exact h inner l isPublic n body ⟨s, hs, ht⟩ hp

theorem declareAll_of_secludes {program : Program} (ho : ∀ s ∈ program, Orderly s)
    (hp : program.Secludes source path x) (f g : Constant → Constant) :
    (seclusion path x).DeclareAll source none (Stmt.mapLiterals source path x f none program)
      (Stmt.mapLiterals source path x g none program) :=
  declareAll_mapLiterals none program ho fun _ hs => fits_of_secludes hp hs

theorem governs {h : Host} {commands : List Command}
    (hk : ∀ source program, Knows h commands source program → program.Secludes source path x) :
    (seclusion path x).Governs h commands := by
  intro source program hknown
  have hall := declareAll_of_secludes hknown.orderly (hk source program hknown) id id
  rwa [mapLiterals_id] at hall

/-- The program is orderly, as every program that is read is. If it, and all else that the session
may come to run, mentions a private member in the code of its module only to bind it to a literal,
then whatever literal the program binds it to, it yields the same and writes the same. -/
theorem literal_not_observed (h : Host) (input : Text) (history : List Command) (source : Text)
    (program : Program) (path : ModulePath) (x : Ident) (v w : Constant)
    (ho : ∀ s ∈ program, Orderly s) (hp : program.Secludes source path x)
    (hk : ∀ other known, Knows h history other known → known.Secludes other path x) :
    let session := after h input history
    let run (k : Constant) := session.perform fun h =>
      runProgram h h.runner source (program.withLiteral source path x k)
    (run v).1 = (run w).1 ∧ (run v).2.takeOutput.1 = (run w).2.takeOutput.1 := by
  have hD := governs hk
  have hsub : ∀ c ∈ history, c ∈ history := fun _ hc => hc
  obtain ⟨hhost, hm⟩ := Discipline.after_steady hD input hsub
  have hrun := Discipline.run_agrees (seclusion path x) h hD.covers h.depth
  have hdeclares := declareAll_of_secludes ho hp (fun _ => v) fun _ => w
  have hends : (seclusion path x).worlds.Ends (after h input history).machine
      (fun k a b => a.2 = b.2 ∧ ((seclusion path x).like k).Matches a.1 b.1)
      (runProgram h h.runner source (program.withLiteral source path x v)
        (after h input history).machine)
      (runProgram h h.runner source (program.withLiteral source path x w)
        (after h input history).machine) :=
    Discipline.runProgram_agrees hrun hm.started hdeclares _ _
      ⟨rfl, hm.sound, Discipline.alike_refl _⟩
  dsimp only
  unfold Session.perform
  rw [hhost]
  dsimp only
  generalize runProgram h h.runner source (program.withLiteral source path x v)
    (after h input history).machine = r, runProgram h h.runner source
    (program.withLiteral source path x w) (after h input history).machine = r' at hends ⊢
  cases hends with
  | ok _ hk hab =>
    obtain ⟨-, -, ⟨rs, rfl⟩, -⟩ := hk
    exact ⟨congrArg Except.ok (Prod.ext (Discipline.like_eq hab.2) hab.1), rfl⟩
  | error _ hk =>
    obtain ⟨-, -, ⟨rs, rfl⟩, -⟩ := hk
    exact ⟨rfl, rfl⟩

/-- A module with one private member, and an attempt to read it from outside. -/
def glimpse (l : Location) : Program :=
  [.module l false "M" [.expr (.binding l "p" (.constant l (.number (.int 1))))],
    .expr (.dotted l ["M", "p"])]

theorem orderly_glimpse {l : Location} : ∀ s ∈ glimpse l, Orderly s := by
  have hleaf : Orderly (.expr (.constant l (.number (.int 1)))) := nodewise_orderly.leaf rfl
  have hbinding : Orderly (.expr (.binding l "p" (.constant l (.number (.int 1))))) :=
    nodewise_orderly.single rfl rfl nofun hleaf
  intro s hs
  rcases List.mem_cons.mp hs with rfl | hs
  · refine .node (fun _ ht => by cases ht) (fun _ ht => by cases ht) fun t ht => ?_
    rw [List.mem_singleton.mp ht]
    exact hbinding
  · rw [List.mem_singleton.mp hs]
    exact nodewise_orderly.leaf rfl

theorem secludes_glimpse {l : Location} : (glimpse l).Secludes source path "p" := by
  rintro code l' isPublic n body ⟨s, hs, ht⟩ - t hbody
  have hnone : ∀ {code inner e}, Within source code (.expr (.constant l e)) inner
      (.module l' isPublic n body) → False := by
    intro code inner e h
    cases h with
    | part hu _ => cases hu
  rcases List.mem_cons.mp hs with rfl | hs
  · cases ht with
    | refl =>
      rw [List.mem_singleton.mp hbody]
      exact .inl ⟨l, l, _, rfl⟩
    | part hu _ => cases hu
    | member hu ht =>
      rw [List.mem_singleton.mp hu] at ht
      cases ht with
      | part hu ht =>
        rw [List.mem_singleton.mp hu] at ht
        exact (hnone ht).elim
  · rw [List.mem_singleton.mp hs] at ht
    cases ht with
    | part hu _ => cases hu

def bareHost : Host := ⟨⟨⟨"/", []⟩, []⟩, 1000, false⟩

theorem read_bareHost (p : Path) (bytes : List UInt8) : bareHost.disk.read p ≠ .ok bytes := by
  intro hr
  have hentry : ∀ place bs, bareHost.disk.entry? place ≠ some (.file bs) := by
    intro place bs he
    unfold Disk.entry? at he
    change (if _ then some Disk.Entry.directory else none) = _ at he
    split at he <;> cases he
  simp only [Disk.read, bind, Except.bind] at hr
  split at hr
  · cases hr
  · split at hr
    · cases hr
    · split at hr
      · cases hr
      · split at hr
        · rename_i he
          exact hentry _ _ he
        · cases hr
        · cases hr

theorem not_knows_bareHost {other : Text} {known : Program} : ¬ Knows bareHost [] other known := by
  intro hk
  cases hk with
  | prelude hp _ => cases hp
  | source hc _ => cases hc
  | file ht _ =>
    unfold Disk.readText at ht
    cases hb : bareHost.disk.read _ with
    | ok bytes => exact read_bareHost _ bytes hb
    | error e =>
      rw [hb] at ht
      cases ht

theorem literal_not_observed_glimpse :
    let l : Location := ⟨"main", 1, 1⟩
    let path : ModulePath := ⟨"main", ["M"]⟩
    let run (k : Constant) := (after bareHost "" []).perform fun h =>
      runProgram h h.runner "main" ((glimpse l).withLiteral "main" path "p" k)
    (∀ s ∈ glimpse l, Orderly s) ∧ (glimpse l).Secludes "main" path "p" ∧
      (∀ other known, Knows bareHost [] other known → known.Secludes other path "p") ∧
      (run (.number (.int 2))).1 = (run (.string "two")).1 ∧
      (run (.number (.int 2))).2.takeOutput.1 = (run (.string "two")).2.takeOutput.1 := by
  have hk : ∀ other known, Knows bareHost [] other known →
      known.Secludes other ⟨"main", ["M"]⟩ "p" := fun _ _ hk => (not_knows_bareHost hk).elim
  exact ⟨orderly_glimpse, secludes_glimpse, hk, literal_not_observed bareHost "" [] "main" _
    ⟨"main", ["M"]⟩ "p" (.number (.int 2)) (.string "two") orderly_glimpse secludes_glimpse hk⟩

end Seclusion

end ModuleScript
