import ModuleScript.Proofs.Conduct.Sessions

/-!
# Where code is at home

Code comes from the prelude, from what a session is given, or from a file that is imported. Each of
these has a frame of its own, and around it only the prelude and the natives. All other frames are
made for a construct of the code, a module body or a call or a block, inside the scope that the
construct runs in. So with every frame goes the construct it was made for, and the scope that a node
runs in consists of frames made for constructs around it, up to the frame of its own source.
-/

set_option autoImplicit false

namespace ModuleScript

open Eval Session

/-- The nodes that run in the frames made for a statement: for a block or a call or a module body. -/
def Stmt.enclosed (s : Stmt) : List Stmt :=
  match s with
  | .expr (.lambda _ _ _ body) => [.expr body]
  | .variation _ _ _ _ body => [.expr body]
  | .module _ _ _ body => body
  | s => if s.opens then s.parts else []

theorem Stmt.enclosed_of_opens {s : Stmt} (h : s.opens = true) : s.enclosed = s.parts := by
  cases s with
  | expr e => cases e <;> first | rfl | cases h
  | _ => cases h

/-- Where code comes from. A file is evaluated in a frame that is made for it. -/
inductive Origin where
  | prelude
  | session
  | file (path : Path) (globals : FrameId)

namespace Origin

def globals : Origin → FrameId
  | prelude => preludeFrame
  | session => globalFrame
  | file _ globals => globals

/-- The frames around the own frame of the code. -/
def outer : Origin → List FrameId
  | prelude => [builtinsFrame]
  | session | file _ _ => [preludeFrame, builtinsFrame]

/-- The frames that every scope of the code ends with. -/
def ground (o : Origin) : List FrameId := o.globals :: o.outer

variable (h : Host) (commands : List Command)

def Wrote : Origin → Program → Prop
  | file path _, program =>
    ∃ t, h.disk.readText path = .ok t ∧ h.read path.text t = .ok program
  | o, program => ∃ source, Given h commands source o.globals o.outer program

/-- The node stands in a program of this origin. -/
def Contains (o : Origin) (s : Stmt) : Prop :=
  ∃ program, o.Wrote h commands program ∧ ∃ source code, LiesIn source program code s

end Origin

/-- What a frame was made for. -/
inductive Home where
  | builtins
  /-- The own frame of a source. -/
  | outermost (o : Origin)
  /-- A construct of the code. -/
  | inside (o : Origin) (s : Stmt)

/-- What the frames were made for, in order. -/
abbrev Homes := List Home

namespace Homes

variable (h : Host) (commands : List Command)

/-- A node of this origin runs in a chain of frames: first those made for constructs around it, then
those that the code starts in. -/
inductive Runs (w : Homes) (o : Origin) : List FrameId → Stmt → Prop where
  | top {program : Program} {s : Stmt} : o.Wrote h commands program → s ∈ program →
      w[o.globals]? = some (.outermost o) → Runs w o o.ground s
  | part {chain : List FrameId} {s t : Stmt} : Runs w o chain s → t ∈ s.parts → Runs w o chain t
  | inside {chain : List FrameId} {s t : Stmt} {f : FrameId} : Runs w o chain s →
      w[f]? = some (.inside o s) → t ∈ s.enclosed → Runs w o (f :: chain) t

/-- The body of each variant runs in a frame that is made for the construct that wrote it. -/
def Good (w : Homes) (f : Closure) : Prop :=
  ∀ v ∈ f.variants, ∃ o s, Runs h commands w o v.scope.chain s ∧ .expr v.body ∈ s.enclosed

/-- The frames that there always are. -/
def base : Homes := [.builtins, .outermost .prelude, .outermost .session]

/-- What there is on the machine was made at home: its frames, and all functions that are bound or
exported anywhere. -/
structure Houses (w : Homes) (m : Machine) : Prop where
  size : w.length = m.frames.size
  begins : base <+: w
  file : ∀ {i p g}, w[i]? = some (.outermost (.file p g)) →
    g = i ∧ (m.frame i).name = "global " ++ p.name
  holds : m.Holds (Value.Carries (Good h commands w))

variable {h commands} {w w' : Homes} {o : Origin} {chain : List FrameId} {s : Stmt} {m : Machine}

theorem getElem?_later {x : Home} {i : FrameId} (hw : w <+: w') (hi : w[i]? = some x) :
    w'[i]? = some x := by
  obtain ⟨rest, rfl⟩ := hw
  rw [List.getElem?_append_left (List.getElem?_eq_some_iff.mp hi).1, hi]

namespace Runs

theorem later (hw : w <+: w') (hr : Runs h commands w o chain s) :
    Runs h commands w' o chain s := by
  induction hr with
  | top hp hs hg => exact .top hp hs (getElem?_later hw hg)
  | part _ ht ih => exact .part ih ht
  | inside _ hf ht ih => exact .inside ih (getElem?_later hw hf) ht

theorem within_of_enclosed {source : Text} {code : Option ModulePath} {t : Stmt}
    (ht : t ∈ s.enclosed) : ∃ inner, Within source code s inner t := by
  by_cases ho : s.opens = true
  · rw [Stmt.enclosed_of_opens ho] at ht
    exact ⟨code, .part ht (.refl code t)⟩
  · cases s with
    | expr e =>
      cases e with
      | lambda l n ps body => exact ⟨code, .part ht (.refl code t)⟩
      | comprehension | select | block | sequence => exact absurd rfl ho
      | _ => cases ht
    | variation l n l' ps body => exact ⟨code, .part ht (.refl code t)⟩
    | module l isPublic n body => exact ⟨_, .member ht (.refl _ t)⟩
    | publicBinding | imports => cases ht

theorem contains (hr : Runs h commands w o chain s) : o.Contains h commands s := by
  induction hr with
  | @top program s hp hs _ => exact ⟨program, hp, [], none, s, hs, .refl none s⟩
  | @part chain s t _ ht ih =>
    obtain ⟨program, hp, source, code, u, hu, hin⟩ := ih
    exact ⟨program, hp, source, code, u, hu, hin.trans (.part ht (.refl code t))⟩
  | inside _ _ ht ih =>
    obtain ⟨program, hp, source, code, u, hu, hin⟩ := ih
    obtain ⟨inner, ht⟩ := within_of_enclosed ht
    exact ⟨program, hp, source, inner, u, hu, hin.trans ht⟩

/-- The chain ends with the frames that the code starts in; all before were made for constructs of
the same code. -/
theorem chain_eq (hr : Runs h commands w o chain s) :
    ∃ inner, chain = inner ++ o.ground ∧ ∀ f ∈ inner, ∃ t, w[f]? = some (.inside o t) ∧
      o.Contains h commands t ∧ t.enclosed ≠ [] := by
  induction hr with
  | top => exact ⟨[], rfl, fun _ hf => by cases hf⟩
  | part _ _ ih => exact ih
  | @inside chain s t f hr hf ht ih =>
    obtain ⟨inner, hchain, hinner⟩ := ih
    refine ⟨f :: inner, by rw [hchain]; rfl, ?_⟩
    exact List.forall_mem_cons.mpr ⟨⟨s, hf, hr.contains, List.ne_nil_of_mem ht⟩, hinner⟩

end Runs

theorem good_later {f : Closure} (hw : w <+: w') (hf : Good h commands w f) :
    Good h commands w' f := by
  intro v hv
  obtain ⟨o, s, hr, hb⟩ := hf v hv
  exact ⟨o, s, hr.later hw, hb⟩

theorem good_append {f : Closure} {v : Variant} (hf : Good h commands w f)
    (hr : Runs h commands w o v.scope.chain s) (hb : .expr v.body ∈ s.enclosed) (i : Nat) :
    Good h commands w ⟨i, f.name, f.variants ++ [v]⟩ := by
  intro u hu
  rcases List.mem_append.mp hu with hu | hu
  · exact hf u hu
  · cases List.mem_singleton.mp hu
    exact ⟨o, s, hr, hb⟩

namespace Houses

theorem of_frames {m' : Machine} (hm : Houses h commands w m) (hf : m'.frames = m.frames)
    (hh : m'.Holds (Value.Carries (Good h commands w))) : Houses h commands w m' := by
  have hframe : ∀ i, m'.frame i = m.frame i := fun i => by rw [Machine.frame, hf]; rfl
  refine ⟨hf ▸ hm.size, hm.begins, fun hi => ?_, hh⟩
  rw [hframe]
  exact hm.file hi

theorem of_exporting {m' : Machine} (hm : Houses h commands w m) (hf : m'.frames = m.frames)
    (hr : m'.records = m.records) (he : m'.Exporting (Value.Carries (Good h commands w))) :
    Houses h commands w m' :=
  hm.of_frames hf (hm.holds.of_exporting hf hr he)

theorem getElem?_new (hm : Houses h commands w m) (x : Home) :
    (w ++ [x])[m.frames.size]? = some x := by
  rw [← hm.size, List.getElem?_concat_length]

theorem pushFrame (hm : Houses h commands w m) {f : Frame} {x : Home}
    (hx : ∀ p g, x = .outermost (.file p g) → g = m.frames.size ∧ f.name = "global " ++ p.name)
    (hf : ∀ {n v}, (n, .value v) ∈ f.bindings → v.Carries (Good h commands w)) :
    Houses h commands (w ++ [x]) (m.pushFrame f) := by
  have hl : w <+: w ++ [x] := List.prefix_append w [x]
  refine ⟨by simp [Machine.pushFrame, hm.size], hm.begins.trans hl, fun {i p g} hi => ?_, ?_⟩
  · rcases Nat.lt_or_ge i w.length with hlt | hge
    · rw [List.getElem?_append_left hlt] at hi
      rw [Machine.frame_pushFrame m f (hm.size ▸ hlt)]
      exact hm.file hi
    · have hlast : i = w.length := by
        have := (List.getElem?_eq_some_iff.mp hi).1
        rw [List.length_append] at this
        exact Nat.le_antisymm (Nat.lt_succ_iff.mp this) hge
      rw [hlast, hm.size] at hi ⊢
      rw [hm.getElem?_new] at hi
      rw [Machine.frame_pushFrame_size]
      exact hx p g (Option.some.inj hi)
  · exact (hm.holds.pushFrame hf).mono fun v hv => hv.mono fun _ => good_later hl

theorem pushExports (hm : Houses h commands w m) :
    Houses h commands w { m with exports := m.exports.push [] } :=
  hm.of_exporting rfl rfl hm.holds.exporting.pushExports

/-- A file gets a frame of its own. -/
theorem openFile (hm : Houses h commands w m) (p : Path) :
    Houses h commands (w ++ [.outermost (.file p m.frames.size)])
      { m.pushFrame { name := "global " ++ p.name } with exports := m.exports.push [] } := by
  refine pushExports (m := m.pushFrame _) (hm.pushFrame (fun q g hx => ?_) fun hv => by cases hv)
  cases hx
  exact ⟨rfl, rfl⟩

theorem blank (input : Text) : Houses h commands base (blank input) where
  size := rfl
  begins := List.prefix_rfl
  file {i p g} hi := by
    match i with
    | 0 | 1 | 2 => cases hi
    | i + 3 => cases hi
  holds := Session.blank_holds (fun _ => Value.carries_plain rfl) input

end Houses

/-! ## Evaluation keeps code at home -/

/-- Wherever code runs it is at home, and what was made before stays what it is. -/
def conduct (h : Host) (commands : List Command) (w₀ : Homes) : Conduct where
  World := Homes
  Later w w' := w <+: w'
  later_refl _ := List.prefix_rfl
  later_trans := List.IsPrefix.trans
  Fits w m := w₀ <+: w ∧ Houses h commands w m
  Good := Good h commands
  Serves _ _ := True
  Code w c s := ∃ o, Runs h commands w o c.scope.chain s
  Here _ _ := True
  Varies := True
  good_later := good_later
  serves_later _ hs := hs
  code_later hl hc := hc.imp fun _ => Runs.later hl
  here_later _ hp := hp
  code_site _ := trivial
  code_part hc ht := hc.imp fun _ hr => .part hr ht
  holds hm := hm.2.holds
  writable _ _ := ⟨trivial, fun _ _ => trivial, fun _ => trivial⟩
  erasable _ _ _ := trivial
  change hm hc := by
    obtain ⟨hw, hm⟩ := hm
    refine ⟨hw, hc.frames_size ▸ hm.size, hm.begins, fun hi => ?_, hc.holds hm.holds⟩
    rw [hc.name]
    exact hm.file hi
  enter {w m c s f} hm hc hs hf := by
    obtain ⟨hw, hm⟩ := hm
    obtain ⟨o, hr⟩ := hc
    have hl : w <+: w ++ [.inside o s] := List.prefix_append _ _
    refine ⟨_, hl, ⟨hw.trans hl, hm.pushFrame (fun _ _ hx => by cases hx) hf.good⟩, fun t ht => ?_⟩
    exact ⟨o, .inside (hr.later hl) (hm.getElem?_new _) (Stmt.enclosed_of_opens hs ▸ ht)⟩
  call {w m f v s g} hm hf hv _ hg := by
    obtain ⟨hw, hm⟩ := hm
    obtain ⟨o, t, hr, hb⟩ := hf v hv
    have hl : w <+: w ++ [.inside o t] := List.prefix_append _ _
    refine ⟨_, hl, ⟨hw.trans hl, hm.pushFrame (fun _ _ hx => by cases hx) hg.good⟩, ?_⟩
    exact ⟨o, .inside (hr.later hl) (hm.getElem?_new _) hb⟩
  lambda {w m c l n ps body} hm hc := by
    obtain ⟨hw, hm⟩ := hm
    obtain ⟨o, hr⟩ := hc
    refine ⟨w, List.prefix_rfl, ⟨hw, hm.of_exporting rfl rfl ?_⟩, ?_⟩
    · exact hm.holds.exporting.of_eq rfl rfl
    · intro v hv
      cases List.mem_singleton.mp hv
      exact ⟨o, _, hr, .head _⟩
  vary {w m c l n l' ps body r f} _ hm hc _ hf _ := by
    obtain ⟨hw, hm⟩ := hm
    obtain ⟨o, hr⟩ := hc
    refine ⟨w, List.prefix_rfl, ⟨hw, hm.of_exporting rfl rfl ?_⟩, ?_,
      fun _ _ => trivial, fun _ => trivial, fun _ _ => trivial⟩
    · exact hm.holds.exporting.of_eq rfl rfl
    · exact good_append hf hr (.head _) _
  register {w} _ _ _ _ _ _ _ _ _ _ hm _ hr := by
    obtain ⟨hw, hm⟩ := hm
    obtain ⟨-, -, -, rfl⟩ := Machine.register_eq_ok hr
    refine ⟨w, List.prefix_rfl, ⟨hw, hm.of_frames rfl ?_⟩, trivial, trivial⟩
    exact hm.holds.pushRecord (fun vis => by cases vis <;> rfl) _
  enterModule {w m c l isPublic n body name i p} hm hc _ _ _ _ := by
    obtain ⟨hw, hm⟩ := hm
    obtain ⟨o, hr⟩ := hc
    have hl : w <+: w ++ [.inside o (.module l isPublic n body)] := List.prefix_append _ _
    refine ⟨_, hl, ⟨hw.trans hl, hm.pushFrame (fun _ _ hx => by cases hx) ?_⟩,
      .of_code (fun _ => List.prefix_rfl) (fun hl hc => hc.imp fun _ => Runs.later hl) fun t ht => ?_⟩
    · intro _ _ hv
      cases hv
    · exact ⟨o, .inside (hr.later hl) (hm.getElem?_new _) ht⟩

end Homes

end ModuleScript
