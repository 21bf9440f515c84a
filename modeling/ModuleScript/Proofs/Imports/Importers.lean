import ModuleScript.Proofs.Conduct.Sessions
import ModuleScript.Proofs.Reading.Placed
import ModuleScript.Proofs.Sessions

/-!
# What imports are relative to

An import is looked up from the source on whose behalf it is performed. For an import outside all
functions that is the source it stands in. The body of a function is evaluated on behalf of the code
that calls it, so an import in there is looked up from wherever the call comes from.
-/

set_option autoImplicit false

namespace ModuleScript

open Eval Session

/-- The source on whose behalf a task is performed, if it is code. -/
def Task.site? : Task → Option Site
  | .eval c _ => some c.site
  | .apply s _ _ => some s
  | .ask _ => none
  | .wait t => t.site?

/-- The body of the function that a node writes. -/
def Stmt.functionBody? : Stmt → Option Expr
  | .expr (.lambda _ _ _ body) | .variation _ _ _ _ body => some body
  | _ => none

theorem Stmt.mem_parts_of_functionBody {s : Stmt} {body : Expr} (h : s.functionBody? = some body) :
    .expr body ∈ s.parts := by
  cases s with
  | expr e =>
    cases e with
    | lambda l n ps b =>
      cases h
      exact .head _
    | _ => cases h
  | variation l n l' ps b =>
    cases h
    exact .head _
  | publicBinding | module | imports => cases h

/-- The node stands in a function of the program. -/
def InFunction (source : Text) (program : Program) (t : Stmt) : Prop :=
  ∃ code f body inner, LiesIn source program code f ∧ f.functionBody? = some body ∧
    Within source code (.expr body) inner t

theorem InFunction.liesIn {source : Text} {program : Program} {t : Stmt}
    (h : InFunction source program t) : ∃ code, LiesIn source program code t := by
  obtain ⟨code, f, body, inner, ⟨s, hs, hf⟩, hb, ht⟩ := h
  exact ⟨inner, s, hs, hf.trans (.part (Stmt.mem_parts_of_functionBody hb) ht)⟩

namespace Session

/-- A program that a session given these commands evaluates, with the name of its source. -/
inductive Evaluates (h : Host) (commands : List Command) : Text → Program → Prop where
  | given {source : Text} {globals : FrameId} {outer : List FrameId} {program : Program} :
      Given h commands source globals outer program → Evaluates h commands source program
  | file {path : Path} {text : Text} {program : Program} : h.disk.readText path = .ok text →
      h.read path.text text = .ok program → Evaluates h commands path.text program

theorem Evaluates.placed {h : Host} {commands : List Command} {source : Text} {program : Program}
    (he : Evaluates h commands source program) : ∀ s ∈ program, Placed source s := by
  cases he with
  | given hg =>
    cases hg with
    | prelude hr => exact placed_of_read hr
    | source _ hr => exact placed_of_read hr
    | file _ _ hr => exact placed_of_read hr
  | file _ hr => exact placed_of_read hr

end Session

namespace Importers

/-! ## On whose behalf tasks are performed -/

/-- All is done on behalf of the given source or of sources opened since there were `n` of them. -/
def onBehalf (s : Site) (n : Nat) : Conduct where
  World := Unit
  Later _ _ := True
  later_refl _ := trivial
  later_trans _ _ := trivial
  Fits _ m := n ≤ m.exports.size
  Good _ _ := True
  Serves _ s' := s' = s ∨ n ≤ s'.exports
  Code _ c _ := c.site = s ∨ n ≤ c.site.exports
  Here _ _ := True
  Varies := True
  good_later _ h := h
  serves_later _ h := h
  code_later _ h := h
  here_later _ h := h
  code_site h := h
  code_part h _ := h
  holds _ := Machine.holds_of_all (Value.carries_of_all fun _ => trivial) _
  writable _ _ := ⟨trivial, fun _ _ => trivial, fun _ => trivial⟩
  erasable _ _ _ := trivial
  change hm hc := Nat.le_trans hm (Nat.le_of_eq hc.exports_size.symm)
  enter hm hc _ _ := ⟨⟨⟩, trivial, hm, fun _ _ => hc⟩
  call hm _ _ hs _ := ⟨⟨⟩, trivial, hm, hs⟩
  lambda hm _ := ⟨⟨⟩, trivial, hm, trivial⟩
  vary _ hm _ _ _ _ :=
    ⟨⟨⟩, trivial, hm, trivial, fun _ _ => trivial, fun _ => trivial, fun _ _ => trivial⟩
  register hm _ hr := by
    obtain ⟨-, -, -, rfl⟩ := Machine.register_eq_ok hr
    exact ⟨⟨⟩, trivial, hm, trivial, trivial⟩
  enterModule hm hc _ _ _ _ :=
    ⟨⟨⟩, trivial, hm, .of_code (fun _ => trivial) (fun _ h => h) fun _ _ => hc⟩

theorem onBehalf_files (s : Site) (n : Nat) (h : Host) : (onBehalf s n).Files h where
  setLoading _ hm := hm
  setLoaded _ _ hm _ := hm
  openFile {w m p t program} hm _ _ _ := by
    have hm : n ≤ m.exports.size := hm
    refine ⟨⟨⟩, trivial, ?_, .inr hm, fun _ _ => .inr hm⟩
    change n ≤ (m.exports.push []).size
    rw [Array.size_push]
    exact Nat.le_succ_of_le hm

theorem allows_of_site {s : Site} {n : Nat} {t : Task} (ht : ∀ s', t.site? = some s' → s' = s) :
    (onBehalf s n).Allows ⟨⟩ t := by
  have hvalid : ∀ v, (onBehalf s n).Valid ⟨⟩ v := Value.carries_of_all fun _ => trivial
  induction t with
  | eval c st => exact .inl (ht c.site rfl)
  | apply site f args => exact ⟨.inl (ht site rfl), hvalid f, fun v _ => hvalid v⟩
  | ask => trivial
  | wait t ih => exact ih ht

theorem site_of_allows {s : Site} {n : Nat} {t : Task} (ht : (onBehalf s n).Allows ⟨⟩ t) {s' : Site}
    (hs : t.site? = some s') : s' = s ∨ n ≤ s'.exports := by
  induction t with
  | eval c st =>
    cases hs
    exact ht
  | apply site f args =>
    cases hs
    exact ht.1
  | ask => cases hs
  | wait t ih => exact ih ht hs

/-- Whatever a task leads to is performed on behalf of the same source, or of one opened since. -/
theorem on_behalf (h : Host) (depth : Nat) {s : Site} {t : Task} (ht : ∀ s', t.site? = some s' → s' = s)
    (m : Machine) :
    Throughout h depth (fun u _ => ∀ s', u.site? = some s' → s' = s ∨ m.exports.size ≤ s'.exports)
      (fun self => self t) m :=
  Conduct.throughout_task (onBehalf_files s m.exports.size h).imports trivial
    (fun _ _ _ _ hu _ hs => site_of_allows hu hs) (Nat.le_refl m.exports.size) (allows_of_site ht) depth

/-! ## Where the code of a task stands -/

variable (h : Host) (commands : List Command)

/-- The node stands in a function of some source. -/
def FunctionCode (s : Stmt) : Prop :=
  ∃ source program, Evaluates h commands source program ∧ InFunction source program s

/-- The node stands in the source on whose behalf it is performed. -/
def OwnCode (c : Context) (s : Stmt) : Prop :=
  ∃ program code, Evaluates h commands c.site.source program ∧ LiesIn c.site.source program code s

variable {h commands} {c d : Context} {s t : Stmt}

theorem FunctionCode.part (hs : FunctionCode h commands s) (ht : t ∈ s.parts) :
    FunctionCode h commands t := by
  obtain ⟨source, program, hp, code, f, body, inner, hf, hb, hs⟩ := hs
  exact ⟨source, program, hp, code, f, body, inner, hf, hb, hs.trans (.part ht (.refl inner t))⟩

theorem FunctionCode.member {l : Location} {isPublic : Bool} {n : Ident} {body : List Stmt}
    (hs : FunctionCode h commands (.module l isPublic n body)) (ht : t ∈ body) :
    FunctionCode h commands t := by
  obtain ⟨source, program, hp, code, f, b, inner, hf, hb, hs⟩ := hs
  exact ⟨source, program, hp, code, f, b, _, hf, hb, hs.trans (.member ht (.refl _ t))⟩

theorem OwnCode.part (hs : OwnCode h commands c s) (ht : t ∈ s.parts) : OwnCode h commands c t := by
  obtain ⟨program, code, hp, r, hr, hs⟩ := hs
  exact ⟨program, code, hp, r, hr, hs.trans (.part ht (.refl code t))⟩

theorem OwnCode.member {l : Location} {isPublic : Bool} {n : Ident} {body : List Stmt}
    (hs : OwnCode h commands c (.module l isPublic n body)) (ht : t ∈ body)
    (hd : d.site = c.site) : OwnCode h commands d t := by
  obtain ⟨program, code, hp, r, hr, hs⟩ := hs
  unfold OwnCode
  rw [hd]
  exact ⟨program, _, hp, r, hr, hs.trans (.member ht (.refl _ t))⟩

theorem functionCode_body {body : Expr} (hs : OwnCode h commands c s ∨ FunctionCode h commands s)
    (hb : s.functionBody? = some body) : FunctionCode h commands (.expr body) := by
  rcases hs with ⟨program, code, hp, hs⟩ | hs
  · exact ⟨c.site.source, program, hp, code, s, body, code, hs, hb, .refl code _⟩
  · exact hs.part (Stmt.mem_parts_of_functionBody hb)

variable (h commands)

/-- Code runs on behalf of its own source or stands in a function. -/
def standing : Conduct where
  World := Unit
  Later _ _ := True
  later_refl _ := trivial
  later_trans _ _ := trivial
  Fits _ m := m.Holds (Value.Carries fun f =>
    ∀ v ∈ f.variants, FunctionCode h commands (.expr v.body))
  Good _ f := ∀ v ∈ f.variants, FunctionCode h commands (.expr v.body)
  Serves _ _ := True
  Code _ c s := OwnCode h commands c s ∨ FunctionCode h commands s
  Here _ _ := True
  Varies := True
  good_later _ h := h
  serves_later _ h := h
  code_later _ h := h
  here_later _ h := h
  code_site _ := trivial
  code_part hs ht := hs.imp (·.part ht) (·.part ht)
  holds hm := hm
  writable _ _ := ⟨trivial, fun _ _ => trivial, fun _ => trivial⟩
  erasable _ _ _ := trivial
  change hm hc := hc.holds hm
  enter hm hs _ hf :=
    ⟨⟨⟩, trivial, hm.pushFrame hf.good, fun _ ht => hs.imp (·.part ht) (·.part ht)⟩
  call hm hf hv _ hg := ⟨⟨⟩, trivial, hm.pushFrame hg.good, .inr (hf _ hv)⟩
  lambda hm hs := by
    refine ⟨⟨⟩, trivial, hm.of_exporting rfl rfl (hm.exporting.of_eq rfl rfl), fun v hv => ?_⟩
    cases List.mem_singleton.mp hv
    exact functionCode_body hs rfl
  vary _ hm hs _ hf _ := by
    refine ⟨⟨⟩, trivial, hm.of_exporting rfl rfl (hm.exporting.of_eq rfl rfl), fun v hv => ?_,
      fun _ _ => trivial, fun _ => trivial, fun _ _ => trivial⟩
    rcases List.mem_append.mp hv with hv | hv
    · exact hf v hv
    · cases List.mem_singleton.mp hv
      exact functionCode_body hs rfl
  register hm _ hr := by
    obtain ⟨-, -, -, rfl⟩ := Machine.register_eq_ok hr
    exact ⟨⟨⟩, trivial, hm.pushRecord (fun vis => by cases vis <;> rfl) _, trivial, trivial⟩
  enterModule hm hs _ _ _ _ :=
    ⟨⟨⟩, trivial, hm.pushFrame (by rintro _ _ ⟨⟩), .of_code (fun _ => trivial) (fun _ h => h)
      fun _ ht => hs.imp (·.member ht rfl) (·.member ht)⟩

theorem standing_files : (standing h commands).Files h where
  setLoading _ hm := hm.of_exporting rfl rfl (hm.exporting.of_eq rfl rfl)
  setLoaded _ _ hm he := hm.of_exporting rfl rfl (hm.exporting.setLoaded _ he)
  openFile {w m p t program} hm _ ht hr := by
    refine ⟨⟨⟩, trivial, ?_, trivial, fun s hs => ?_⟩
    · exact (Machine.Holds.pushFrame hm fun hv => by cases hv).pushExports
    · exact .inl ⟨program, none, .file ht hr, s, hs, .refl none s⟩

theorem standing_serving : (standing h commands).Serving h commands where
  files := standing_files h commands
  varies := trivial
  given hm hg := ⟨⟨⟩, trivial, Machine.Holds.pushExports hm, trivial, fun s hs =>
    .inl ⟨_, none, .given hg, s, hs, .refl none s⟩⟩

variable {h commands}

/-! ## Imports -/

theorem file_of_ownCode {l : Location} {names : List Ident} {path : Text}
    (hs : OwnCode h commands c (.imports l names path)) : l.file = c.site.source := by
  obtain ⟨program, code, hp, s, hs, hin⟩ := hs
  exact ((hp.placed s hs).within hin).location

theorem inFunction_of_functionCode {l : Location} {names : List Ident} {path : Text}
    (hs : FunctionCode h commands (.imports l names path)) :
    ∃ program, Evaluates h commands l.file program ∧
      InFunction l.file program (.imports l names path) := by
  obtain ⟨source, program, hp, hs⟩ := hs
  obtain ⟨code, r, hr, hin⟩ := hs.liesIn
  obtain rfl : l.file = source := ((hp.placed r hr).within hin).location
  exact ⟨program, hp, hs⟩

/-- What an import does if its path is seen from the given source. -/
def importFrom (h : Host) (self : Step) (c : Context) (names : List Ident) (path source : Text) :
    Eval Value := do
  let exports ← load h self path source
  bindImports c path exports names
  return .unit

variable (h commands)

/-- An import that a task performs is seen from the file that it stands in, unless it stands in a
function. Whatever a task leads to, function bodies too, is performed on behalf of the source that the
task is performed on behalf of, or of one opened meanwhile. -/
structure Relative (t : Task) (m : Machine) : Prop where
  own : ∀ c l names path, t = .eval c (.imports l names path) →
    (∀ self, stmt h self c (.imports l names path) = importFrom h self c names path l.file) ∨
      ∃ program, Evaluates h commands l.file program ∧
        InFunction l.file program (.imports l names path)
  behalf : ∀ s, t.site? = some s → ∀ depth, Throughout h depth
    (fun u _ => ∀ s', u.site? = some s' → s' = s ∨ m.exports.size ≤ s'.exports) (fun self => self t) m

/-- In every session, whenever an import outside all functions is performed, its path is seen from the
file in which it stands; an import in a function is seen from the source that the call of the function
is performed on behalf of. -/
theorem imports_relative (h : Host) (input : Text) (history : List Command) (command : Command) :
    Throughout h h.depth (Relative h (history ++ [command])) (command.perform h)
      (after h input history).machine := by
  have hserving := standing_serving h (history ++ [command])
  have hblank : (standing h (history ++ [command])).Fits ⟨⟩ (blank input) :=
    blank_holds (fun _ => Value.carries_plain rfl) input
  obtain ⟨-, w, -, hm⟩ := Conduct.after_fits hserving hblank fun c hc =>
    List.mem_append_left [command] hc
  refine Conduct.throughout_perform hserving (fun w k t _ ht => ⟨?_, ?_⟩) hm (by simp) h.depth
  · rintro c l names path rfl
    have hstands : OwnCode h (history ++ [command]) c _ ∨ FunctionCode h (history ++ [command]) _ :=
      ht
    rcases hstands with hs | hs
    · refine .inl fun self => ?_
      rw [file_of_ownCode hs]
      rfl
    · exact .inr (inFunction_of_functionCode hs)
  · intro s hs depth
    refine on_behalf h depth (fun s' hs' => ?_) k
    exact Option.some.inj (hs'.symm.trans hs)

/-- Two files in one directory; a function of the first imports from the second. -/
def neighbours : Host :=
  hostWith [(["lib", "a.rs"], "pub let f = fn() => \x7b\n imp x from \"b.rs\"\n x\n\x7d\n"),
    (["lib", "b.rs"], "pub let x = 1\n")]

/-- Called from another directory the function does not find the file beside its own. -/
theorem import_misses_neighbour :
    (∃ e m, (Command.source "<input>" "f()").perform neighbours neighbours.runner
        (after neighbours "" [.source "<input>" "imp f from \"lib/a.rs\""]).machine =
          .error (.report e) m ∧
      e.location = some ⟨"/w/lib/a.rs", 2, 2⟩ ∧ e.kind = .importFailure) ∧
    ∃ p, neighbours.disk.resolveImport "b.rs" "/w/lib/a.rs" = .ok p ∧
      neighbours.disk.isFile p = .ok true := by
  constructor
  · have hfails : failsWith (fun e => e.location == some ⟨"/w/lib/a.rs", 2, 2⟩ &&
        e.kind == .importFailure) ((Command.source "<input>" "f()").perform neighbours
          neighbours.runner
          (after neighbours "" [.source "<input>" "imp f from \"lib/a.rs\""]).machine) = true := by
      decide +kernel
    obtain ⟨e, m, he, htest⟩ := failsWith_eq_true hfails
    obtain ⟨hl, hk⟩ := Bool.and_eq_true_iff.mp htest
    exact ⟨e, m, he, eq_of_beq hl, eq_of_beq hk⟩
  · exact ⟨⟨"/", ["w", "lib", "b.rs"]⟩, by decide +kernel, by decide +kernel⟩

end Importers

end ModuleScript
