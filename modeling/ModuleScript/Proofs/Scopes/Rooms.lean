import ModuleScript.Proofs.Reading.Orderly
import ModuleScript.Proofs.Scopes.Homes

/-!
# The rooms around code

A node runs in a scope whose frames were made for the constructs around it, innermost first, up to
the own frame of its source. The frame of a module body belongs to the module, and when a node of the
body runs the module has all the members that the body declares: they are declared before the first
statement, and no member is ever lost. As code of a module a node is code of the innermost one around
it.
-/

set_option autoImplicit false

namespace ModuleScript

open Eval Session

/-! ## What lasts -/

namespace Machine

/-- Frames stay with their modules, records keep their paths, and names stay in their tiers. -/
structure Persists (m m' : Machine) : Prop where
  frames : m.frames.size ≤ m'.frames.size
  records : m.records.size ≤ m'.records.size
  attached : ∀ f < m.frames.size, (m'.frame f).record = (m.frame f).record
  path : ∀ i < m.records.size, (m'.record i).path = (m.record i).path
  tiers : ∀ i, (m.record i).TiersKept (m'.record i)

/-- A frame that belongs to no module. -/
structure Free (m : Machine) (f : FrameId) : Prop where
  frame : f < m.frames.size
  record : (m.frame f).record = none

/-- A frame that belongs to a module with this path, which has the members that the body declares. -/
structure Furnished (m : Machine) (f : FrameId) (path : ModulePath) (body : List Stmt) (i : RecordId) :
    Prop where
  frame : f < m.frames.size
  record : i < m.records.size
  attached : (m.frame f).record = some i
  path : (m.record i).path = path
  members : m.Declares i body

variable {m m' k : Machine} {f : FrameId} {path : ModulePath} {body : List Stmt} {i : RecordId}
  {good : Value → Prop} {here : Place → Prop}

theorem Retains.persists (h : m.Retains m') : m.Persists m' :=
  ⟨h.frames, h.records, h.attached, h.path, h.tiers⟩

theorem persists_refl (m : Machine) : m.Persists m := (retains_refl m).persists

theorem Persists.trans (h : m.Persists m') (h' : m'.Persists k) : m.Persists k where
  frames := Nat.le_trans h.frames h'.frames
  records := Nat.le_trans h.records h'.records
  attached f hf := by rw [h'.attached f (Nat.lt_of_lt_of_le hf h.frames), h.attached f hf]
  path i hi := by rw [h'.path i (Nat.lt_of_lt_of_le hi h.records), h.path i hi]
  tiers i := (h.tiers i).trans (h'.tiers i)

theorem persists_of_eq (hframes : m'.frames = m.frames) (hrecords : m'.records = m.records) :
    m.Persists m' := by
  have hframe : m'.frame = m.frame := by unfold Machine.frame; rw [hframes]
  have hrecord : m'.record = m.record := by unfold Machine.record; rw [hrecords]
  refine ⟨Nat.le_of_eq (by rw [hframes]), Nat.le_of_eq (by rw [hrecords]), fun f _ => ?_,
    fun i _ => ?_, fun i => ?_⟩
  · rw [hframe]
  · rw [hrecord]
  · rw [hrecord]
    exact fun _ _ hn => hn

theorem Change.persists (h : m.Change good here m') : m.Persists m' := by
  cases h with
  | @setSlot f n s _ _ => exact (retains_bindings m f fun b => b.set n s).persists
  | @eraseSlot f n _ => exact (retains_bindings m f fun b => b.erase n).persists
  | @setMember i n s vis _ _ =>
    exact (retains_setRecord (Record.path_setMember _ _ _ _) (parent_setMember _ _ _ _)
      (Record.tiersKept_setMember _ vis n s)).persists
  | _ => exact persists_of_eq rfl rfl

theorem Free.later (h : m.Free f) (hl : m.Persists m') : m'.Free f where
  frame := Nat.lt_of_lt_of_le h.frame hl.frames
  record := (hl.attached f h.frame).trans h.record

theorem Furnished.later (h : m.Furnished f path body i) (hl : m.Persists m') :
    m'.Furnished f path body i where
  frame := Nat.lt_of_lt_of_le h.frame hl.frames
  record := Nat.lt_of_lt_of_le h.record hl.records
  attached := (hl.attached f h.frame).trans h.attached
  path := (hl.path i h.record).trans h.path
  members := h.members.later (hl.tiers i)

/-- The frame of a module of which nothing has been declared yet. -/
theorem furnished_pushFrame (name : Text) (hi : (m.record i).path = path) (hp : path.names ≠ []) :
    (m.pushFrame { name, record := some i }).Furnished m.frames.size path [] i where
  frame := by simp [Machine.pushFrame]
  record := by
    rcases Nat.lt_or_ge i m.records.size with hlt | hge
    · exact hlt
    · have hnone : m.record i = default := by
        unfold Machine.record
        rw [Array.getElem?_eq_none hge]
        rfl
      rw [hnone] at hi
      subst hi
      exact absurd rfl hp
  attached := by rw [frame_pushFrame_size]
  path := hi
  members _ _ hn := by cases hn

/-- What is declared furnishes the frame. -/
theorem Furnished.fill {body' : List Stmt} (h : m.Furnished f path body i) (hd : m.Declares i body') :
    m.Furnished f path body' i :=
  { h with members := hd }

theorem free_pushFrame (m : Machine) {g : Frame} (hg : g.record = none) :
    (m.pushFrame g).Free m.frames.size where
  frame := by simp [Machine.pushFrame]
  record := by rw [frame_pushFrame_size, hg]

end Machine

/-! ## Rooms -/

/-- A frame with the construct that it was made for. -/
structure Room where
  frame : FrameId
  construct : Stmt

/-- A room that was made for a module body. -/
def Room.isModule (r : Room) : Bool := r.construct.isModule

theorem Stmt.isModule_of_opens {s : Stmt} (h : s.opens = true) : s.isModule = false := by
  cases s with
  | module l isPublic n body => cases h
  | _ => rfl

/-- But for module bodies, what runs in the frames made for a construct are parts of it. -/
theorem Stmt.mem_parts_of_enclosed {s t : Stmt} (hs : s.isModule = false) (ht : t ∈ s.enclosed) :
    t ∈ s.parts := by
  by_cases ho : s.opens = true
  · rwa [← Stmt.enclosed_of_opens ho]
  · cases s with
    | expr e =>
      cases e with
      | lambda l n ps body => exact ht
      | comprehension | select | block | sequence => exact absurd rfl ho
      | _ => cases ht
    | variation l n l' ps body => exact ht
    | module l isPublic n body => cases hs
    | publicBinding | imports => cases ht

/-- All that is written by a source is orderly. -/
theorem Origin.orderly_of_wrote {h : Host} {commands : List Command} {o : Origin}
    {program : Program} (hp : o.Wrote h commands program) : ∀ s ∈ program, Orderly s := by
  cases o with
  | file path globals =>
    obtain ⟨t, -, hr⟩ := hp
    exact orderly_of_read hr
  | prelude =>
    obtain ⟨source, hg⟩ := hp
    cases hg with
    | prelude hr => exact orderly_of_read hr
  | session =>
    obtain ⟨source, hg⟩ := hp
    cases hg with
    | source _ hr => exact orderly_of_read hr
    | file _ _ hr => exact orderly_of_read hr

namespace Rooms

variable (h : Host) (commands : List Command)

/-- A node of this origin, as code of a module or of none, in the rooms around it. -/
inductive Situated (m : Machine) (o : Origin) : Option ModulePath → List Room → Stmt → Prop where
  | top {program : Program} {s : Stmt} : o.Wrote h commands program → s ∈ program →
      m.Free o.globals → Situated m o none [] s
  | part {code : Option ModulePath} {rooms : List Room} {s t : Stmt} :
      Situated m o code rooms s → t ∈ s.parts → Situated m o code rooms t
  | inside {code : Option ModulePath} {rooms : List Room} {s t : Stmt} {f : FrameId} :
      Situated m o code rooms s → s.isModule = false → m.Free f → t ∈ s.enclosed →
      Situated m o code (⟨f, s⟩ :: rooms) t
  | member {code : Option ModulePath} {rooms : List Room} {l : Location} {isPublic : Bool} {n : Ident}
      {body : List Stmt} {t : Stmt} {f : FrameId} {i : RecordId} {source : Text} :
      Situated m o code rooms (.module l isPublic n body) →
      m.Furnished f (.below source code n) body i → t ∈ body →
      Situated m o (some (.below source code n)) (⟨f, .module l isPublic n body⟩ :: rooms) t

/-- The frames are those of the rooms around the node and those that its source starts in. -/
def Around (m : Machine) (code : Option ModulePath) (chain : List FrameId) (s : Stmt) : Prop :=
  ∃ o rooms, Situated h commands m o code rooms s ∧ chain = rooms.map Room.frame ++ o.ground

/-- The body of each variant is situated where it was written. -/
def Good (m : Machine) (f : Closure) : Prop :=
  ∀ v ∈ f.variants, ∃ s, Around h commands m v.module v.scope.chain s ∧ s.isModule = false ∧
    .expr v.body ∈ s.enclosed

/-- Nothing that was known of an earlier machine is lost, and the frames that there always are belong
to no module. -/
structure Hosts (k m : Machine) : Prop where
  persists : k.Persists m
  prelude : m.Free preludeFrame
  session : m.Free globalFrame
  holds : m.Holds (Value.Carries (Good h commands k))

variable {h commands} {k m m' : Machine} {o : Origin} {code : Option ModulePath}
  {rooms : List Room} {chain : List FrameId} {s t : Stmt} {f : FrameId}

theorem Situated.later (hs : Situated h commands m o code rooms s) (hl : m.Persists m') :
    Situated h commands m' o code rooms s := by
  induction hs with
  | top hp hs hf => exact .top hp hs (hf.later hl)
  | part _ ht ih => exact .part ih ht
  | inside _ hs hf ht ih => exact .inside ih hs (hf.later hl) ht
  | member _ hf ht ih => exact .member ih (hf.later hl) ht

theorem Situated.orderly (hs : Situated h commands m o code rooms s) : Orderly s := by
  induction hs with
  | top hp hs _ => exact Origin.orderly_of_wrote hp _ hs
  | part _ ht ih => exact ih.part ht
  | inside _ hs _ ht ih => exact ih.part (Stmt.mem_parts_of_enclosed hs ht)
  | member _ _ ht ih => exact ih.member ht

namespace Around

variable (ha : Around h commands m code chain s)

include ha

theorem later (hl : m.Persists m') : Around h commands m' code chain s := by
  obtain ⟨o, rooms, hs, hchain⟩ := ha
  exact ⟨o, rooms, hs.later hl, hchain⟩

theorem part (ht : t ∈ s.parts) : Around h commands m code chain t := by
  obtain ⟨o, rooms, hs, hchain⟩ := ha
  exact ⟨o, rooms, .part hs ht, hchain⟩

theorem inside (hs : s.isModule = false) (hf : m.Free f) (ht : t ∈ s.enclosed) :
    Around h commands m code (f :: chain) t := by
  obtain ⟨o, rooms, hsituated, rfl⟩ := ha
  exact ⟨o, ⟨f, s⟩ :: rooms, .inside hsituated hs hf ht, rfl⟩

theorem member {l : Location} {isPublic : Bool} {n : Ident} {body : List Stmt} {i : RecordId}
    {source : Text} (hs : s = .module l isPublic n body)
    (hf : m.Furnished f (.below source code n) body i) (ht : t ∈ body) :
    Around h commands m (some (.below source code n)) (f :: chain) t := by
  subst hs
  obtain ⟨o, rooms, hsituated, rfl⟩ := ha
  exact ⟨o, ⟨f, _⟩ :: rooms, .member hsituated hf ht, rfl⟩

/-- A module stands at the top of its source or directly in the body of another, so that it is
registered below the module whose code declares it. -/
theorem pathFor {c : Context} (hmodule : s.isModule = true) (hchain : c.scope.chain = chain)
    (n : Ident) : m.pathFor c n = .below c.site.source code n := by
  obtain ⟨o, rooms, hs, rfl⟩ := ha
  have hframe : ∀ {f fs}, f :: fs = c.scope.chain → c.scope.frame = f :=
    fun he => (List.cons.inj he).1.symm
  unfold Machine.pathFor
  cases hs with
  | top _ _ hf =>
    rw [hframe hchain.symm, hf.record]
    rfl
  | part hs ht => rw [hs.orderly.part_isModule ht] at hmodule; cases hmodule
  | inside hs hplain _ ht =>
    rw [hs.orderly.part_isModule (Stmt.mem_parts_of_enclosed hplain ht)] at hmodule
    cases hmodule
  | member _ hf _ =>
    rw [hframe hchain.symm, hf.attached]
    dsimp only
    rw [hf.path]
    rfl

end Around

theorem good_later {f : Closure} (hl : m.Persists m') (hf : Good h commands m f) :
    Good h commands m' f := by
  intro v hv
  obtain ⟨s, hs, hb⟩ := hf v hv
  exact ⟨s, hs.later hl, hb⟩

namespace Hosts

/-- What is known of the machine now is more than what was known before. -/
theorem now (hm : Hosts h commands k m) : Hosts h commands m m where
  persists := m.persists_refl
  prelude := hm.prelude
  session := hm.session
  holds := hm.holds.mono fun _ hv => hv.mono fun _ => good_later hm.persists

theorem onward (hm : Hosts h commands k m) (hl : m.Persists m')
    (hh : m'.Holds (Value.Carries (Good h commands k))) : Hosts h commands k m' where
  persists := hm.persists.trans hl
  prelude := hm.prelude.later hl
  session := hm.session.later hl
  holds := hh

theorem of_exporting (hm : Hosts h commands k m) (hframes : m'.frames = m.frames)
    (hrecords : m'.records = m.records)
    (hexporting : m'.Exporting (Value.Carries (Good h commands k))) : Hosts h commands k m' :=
  hm.onward (Machine.persists_of_eq hframes hrecords)
    (hm.holds.of_exporting hframes hrecords hexporting)

theorem pushExports (hm : Hosts h commands k m) :
    Hosts h commands k { m with exports := m.exports.push [] } :=
  hm.of_exporting rfl rfl hm.holds.exporting.pushExports

theorem newFunction (hm : Hosts h commands k m) :
    Hosts h commands k { m with functions := m.functions + 1 } :=
  hm.of_exporting rfl rfl (hm.holds.exporting.of_eq rfl rfl)

/-- After a new frame. -/
theorem pushFrame (hm : Hosts h commands k m) {g : Frame}
    (hg : ∀ {n v}, (n, .value v) ∈ g.bindings → v.Carries (Good h commands k)) :
    k.Persists (m.pushFrame g) ∧ Hosts h commands (m.pushFrame g) (m.pushFrame g) := by
  have hl := (Machine.retains_pushFrame m g).persists
  exact ⟨hm.persists.trans hl, (hm.onward hl (hm.holds.pushFrame hg)).now⟩

theorem blank (input : Text) : Hosts h commands (blank input) (blank input) where
  persists := Machine.persists_refl _
  prelude := ⟨by simp [Session.blank, preludeFrame], rfl⟩
  session := ⟨by simp [Session.blank, globalFrame], rfl⟩
  holds := Session.blank_holds (fun _ => Value.carries_plain rfl) input

end Hosts

/-! ## Evaluation keeps code in its rooms -/

/-- Wherever code runs it is in the rooms around it. -/
def conduct (h : Host) (commands : List Command) : Conduct where
  World := Machine
  Later := Machine.Persists
  later_refl := Machine.persists_refl
  later_trans := Machine.Persists.trans
  Fits := Hosts h commands
  Good := Good h commands
  Serves _ _ := True
  Code k c s := Around h commands k c.module c.scope.chain s
  Here _ place := ∀ p, place = .module p → p.names ≠ []
  Varies := True
  good_later := good_later
  serves_later _ hs := hs
  code_later hl hc := hc.later hl
  here_later _ hp := hp
  code_site _ := trivial
  code_part hc ht := hc.part ht
  holds hm := hm.holds
  writable _ _ := ⟨nofun, fun _ _ => nofun, fun _ => nofun⟩
  erasable _ _ _ := nofun
  change hm hc := hm.onward hc.persists (hc.holds hm.holds)
  enter {k m c s f} hm hc hs hf := by
    obtain ⟨hl, hm'⟩ := hm.pushFrame hf.good
    refine ⟨_, hl, hm', fun t ht => ?_⟩
    exact (hc.later hl).inside (Stmt.isModule_of_opens hs) (m.free_pushFrame hf.record)
      (Stmt.enclosed_of_opens hs ▸ ht)
  call {k m f v s g} hm hf hv _ hg := by
    obtain ⟨hl, hm'⟩ := hm.pushFrame hg.good
    obtain ⟨t, hc, ht, hb⟩ := hf v hv
    exact ⟨_, hl, hm', (hc.later hl).inside ht (m.free_pushFrame hg.record) hb⟩
  lambda {k m c l n ps body} hm hc := by
    refine ⟨k, k.persists_refl, hm.newFunction, fun v hv => ?_⟩
    cases List.mem_singleton.mp hv
    exact ⟨_, hc, rfl, .head _⟩
  vary {k m c l n l' ps body r f} _ hm hc _ hf _ := by
    refine ⟨k, k.persists_refl, hm.newFunction, fun v hv => ?_, fun _ _ => nofun, fun _ => nofun,
      fun _ _ => nofun⟩
    rcases List.mem_append.mp hv with hv | hv
    · exact hf v hv
    · cases List.mem_singleton.mp hv
      exact ⟨_, hc, rfl, .head _⟩
  register {k m m' c l isPublic n body i p isOutermost} hm _ hr := by
    obtain ⟨rfl, -, -, rfl⟩ := Machine.register_eq_ok hr
    refine ⟨k, k.persists_refl, hm.onward (Machine.retains_pushRecord m _ _).persists ?_, nofun, ?_⟩
    · exact hm.holds.pushRecord (fun vis => by cases vis <;> rfl) _
    · rintro q ⟨⟩
      exact Machine.pathFor_names m c n
  enterModule {k m c l isPublic n body name i p} hm hc _ hp hi hbefore := by
    obtain ⟨hl, hm'⟩ := hm.pushFrame (g := { name, record := some i }) fun hv => by cases hv
    refine ⟨_, hl, hm', fun w₁ m₁ hl₁ hm₁ hd => ⟨m₁, hm₁.persists, hm₁.now, fun s hs => ?_⟩⟩
    obtain ⟨k₀, m₀, -, hm₀, hc₀, rfl⟩ := hbefore
    have hpath : m₀.pathFor c n = _ := (hc₀.later hm₀.persists).pathFor rfl rfl n
    have hlater := hl₁.trans hm₁.persists
    have hfurnished : (m.pushFrame { name, record := some i }).Furnished m.frames.size _ [] i :=
      Machine.furnished_pushFrame name hi (hp _ rfl)
    have hroom := (hfurnished.later hlater).fill (hd (hfurnished.later hlater).record)
    rw [hpath] at hroom ⊢
    exact (hc.later (hl.trans hlater)).member rfl hroom hs

theorem files (h : Host) (commands : List Command) : (conduct h commands).Files h where
  setLoading _ hm := hm.of_exporting rfl rfl (hm.holds.exporting.of_eq rfl rfl)
  setLoaded p _ hm he := hm.of_exporting rfl rfl (hm.holds.exporting.setLoaded p he)
  openFile {k m p t program} hm _ ht hp := by
    obtain ⟨hl, hm'⟩ := hm.pushFrame (g := { name := "global " ++ p.name }) fun hv => by cases hv
    refine ⟨_, hl, hm'.pushExports, trivial, fun s hs => ?_⟩
    exact ⟨.file p m.frames.size, [], .top ⟨t, ht, hp⟩ hs (m.free_pushFrame rfl), rfl⟩

theorem serving (h : Host) (commands : List Command) : (conduct h commands).Serving h commands where
  files := files h commands
  varies := trivial
  given {k m source globals outer program} hm hg := by
    refine ⟨m, hm.persists, hm.now.pushExports, trivial, fun s hs => ?_⟩
    cases hg with
    | prelude hp => exact ⟨.prelude, [], .top ⟨_, .prelude hp⟩ hs hm.prelude, rfl⟩
    | source hmem hp => exact ⟨.session, [], .top ⟨_, .source hmem hp⟩ hs hm.session, rfl⟩
    | file hmem ht hp => exact ⟨.session, [], .top ⟨_, .file hmem ht hp⟩ hs hm.session, rfl⟩

/-- In every session, whenever a node is evaluated, it runs as code of the innermost module around
it, in the rooms around it. -/
theorem throughout_around (h : Host) (input : Text) (history : List Command) (command : Command) :
    Throughout h h.depth
      (fun t m => ∀ c s, t = .eval c s →
        Around h (history ++ [command]) m c.module c.scope.chain s)
      (command.perform h) (after h input history).machine := by
  have hserving := serving h (history ++ [command])
  have hsub : ∀ c ∈ history, c ∈ history ++ [command] := fun _ hc => List.mem_append_left _ hc
  obtain ⟨-, k, -, hm⟩ := Conduct.after_fits hserving (Hosts.blank input) hsub
  refine Conduct.throughout_perform hserving ?_ hm (by simp) h.depth
  rintro k m t hk ht c s rfl
  exact Around.later ht hk.persists

end Rooms

end ModuleScript
