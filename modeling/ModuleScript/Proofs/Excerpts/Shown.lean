import ModuleScript.Proofs.Congruence.Failing
import ModuleScript.Proofs.Excerpts.Objections
import ModuleScript.Proofs.Excerpts.Pieces
import ModuleScript.Proofs.Excerpts.Windows
import ModuleScript.Proofs.Functions.Sound

/-!
# Reports show the line that they point to

A report gets its place from what finds fault: scanning, the reader, or the node whose evaluation
fails. In each case the place is one of the source at which scanning has found what the report is
about, and the excerpt is made for that place. As far as newlines are the only line boundaries, the
marked line of the excerpt is therefore the one that what is at fault begins in, at the column of the
report.
-/

set_option autoImplicit false

namespace ModuleScript

open Eval Session Grammar

/-! ## What reports are about -/

/-- What a report located in a text is about, given what scanning finds there: a lexeme that is no
token, a token that cannot come there, a construct that is made wrong, or a node of the program. -/
inductive Blames (file text : Text) (l : Location) (r : Report) : Scan.Piece → Prop where
  | lexeme {cause : Cause} : r = { cause.reportAt l with context := r.context } →
      Blames file text l r (.flaw cause)
  | unexpected {k : Token.Kind} :
      r = { (Cause.unexpected (Token.text ⟨k, l⟩)).reportAt l with context := r.context } →
      Blames file text l r (.token k)
  | construct {k : Token.Kind} : Semantic { r with context := none } →
      Blames file text l r (.token k)
  | node {k : Token.Kind} {program : Program} {above : List Stmt} {s : Stmt} :
      readProgram file text = .ok program → Occurs program above s → l ∈ s.locations →
      Blames file text l r (.token k)

/-- The report is about what a text that the session reads has at the place. -/
def PointsTo (h : Host) (commands : List Command) (r : Report) (l : Location) : Prop :=
  ∃ text p rest, Reads h commands l.file text ∧
    Scan.Finds (Location.start l.file) text l p rest ∧ Blames l.file text l r p

/-- If the report has a place, it shows the excerpt there and points to what it is about. -/
def Traced (h : Host) (commands : List Command) (r : Report) : Prop :=
  ∀ l, r.location = some l → r.context = h.excerptAt l ∧ PointsTo h commands r l

theorem finds_of_mem_tokenize {file text : Text} {t : Token} (ht : t ∈ (tokenize file text).1) :
    ∃ rest, Scan.Finds (Location.start file) text t.location (.token t.kind) rest := by
  have hscan : t ∈ (Scan.tokensFrom 0 (Location.start file) text).1 :=
    (Layout.significant_sublist [] none _).mem ht
  exact Scan.finds_of_mem hscan

theorem Scan.Finds.file {l l' : Location} {t rest : Text} {p : Piece} (h : Finds l t l' p rest) :
    l'.file = l.file := by
  obtain ⟨hreaches, -⟩ := h
  obtain ⟨before, -, rfl⟩ := hreaches.exists_append
  exact l.file_past before

variable {h : Host} {commands : List Command} {file text : Text} {r : Report}

theorem pointsTo_token (hreads : Reads h commands file text) {t : Token}
    (ht : t ∈ (tokenize file text).1) (hr : Blames file text t.location r (.token t.kind)) :
    PointsTo h commands r t.location := by
  have hfile := file_of_mem_tokenize ht
  obtain ⟨rest, hfinds⟩ := finds_of_mem_tokenize ht
  unfold PointsTo
  rw [hfile]
  exact ⟨text, _, rest, hreads, hfinds, hr⟩

/-- Reports of reading point to what they are about. -/
theorem traced_of_read (hreads : Reads h commands file text)
    (hr : h.read file text = .error (.report r)) : Traced h commands r := by
  obtain ⟨r₀, hprogram, rfl⟩ := report_of_read hr
  intro l hl
  have hl : r₀.location = some l := hl
  refine ⟨congrArg (·.bind h.excerptAt) hl, ?_⟩
  rcases objection_of_readProgram hprogram with hobjection | hstop
  · cases hobjection with
    | @unexpected t ht =>
      cases hl
      exact pointsTo_token hreads ht (.unexpected rfl)
    | @construct t _ ht hlocation hsemantic =>
      rw [hlocation] at hl
      cases hl
      refine pointsTo_token hreads ht (.construct ?_)
      cases hsemantic with
      | duplicateParameter l => exact .duplicateParameter l
      | variationWithoutFunction n l => exact .variationWithoutFunction n l
      | declarationInBlock l => exact .declarationInBlock l
    | unexpectedEnd => cases hl
  · have hscan : (Scan.tokensFrom 0 (Location.start file) text).2 = some (.report r₀) := hstop
    obtain ⟨cause, l', rest, rfl, hfinds⟩ := Scan.finds_of_stop hscan
    cases hl
    have hfile : l.file = file := hfinds.file
    unfold PointsTo
    rw [hfile]
    exact ⟨text, _, rest, hreads, hfinds, .lexeme rfl⟩

/-! ## Nodes -/

/-- A node of a program that the session evaluates is located there. -/
def NodeAt (h : Host) (commands : List Command) (l : Location) : Prop :=
  ∃ text program above s, Reads h commands l.file text ∧ readProgram l.file text = .ok program ∧
    Occurs program above s ∧ l ∈ s.locations

theorem Sound.occurring {T : Location → Prop} {program : Program} {parent : Option Stmt} {s : Stmt}
    {above : List Stmt} (h : Sound T parent s) (hs : Occurs program above s) :
    Sound (fun l => T l ∧ ∃ above s, Occurs program above s ∧ l ∈ s.locations) parent s := by
  induction h generalizing above with
  | node hp hl _ ih =>
    exact .node hp (fun l hm => ⟨hl l hm, _, _, hs, hm⟩) fun t ht => ih t ht (.child hs ht)

theorem isSound_nodeAt {program : Program} (hreads : Reads h commands file text)
    (hr : readProgram file text = .ok program) {s : Stmt} (hs : s ∈ program) :
    s.IsSound (NodeAt h commands) := by
  have hsound := (sound_of_readProgram hr s hs).occurring (.top hs)
  refine ⟨none, hsound.mono ?_⟩
  rintro l ⟨⟨t, ht, rfl⟩, above, s, hoccurs, hl⟩
  have hfile := file_of_mem_tokenize ht
  refine ⟨text, program, above, s, ?_, ?_, hoccurs, hl⟩
  · rw [hfile]
    exact hreads
  · rw [hfile]
    exact hr

theorem Stmt.location_mem_locations (s : Stmt) : s.location ∈ s.locations := by
  cases s with
  | expr e => cases e <;> exact .head _
  | _ => exact .head _

/-- A report without a place points to the node that it is given the place of. -/
theorem NodeAt.traced {l : Location} (hl : NodeAt h commands l) (hr : r.location = none) :
    Traced h commands (r.locate l (h.excerptAt l)) := by
  obtain ⟨text, program, above, s, hreads, hprogram, hoccurs, hs⟩ := hl
  obtain ⟨-, -, htokens⟩ := read_wellFormed hprogram hoccurs
  obtain ⟨t, ht, rfl⟩ := htokens l hs
  unfold Report.locate
  rw [hr]
  rintro _ ⟨⟩
  exact ⟨rfl, pointsTo_token hreads ht (.node hprogram hoccurs hs)⟩

/-! ## Failures of computations -/

/-- Reports that have a place are traced. -/
def Failure.Traced (h : Host) (commands : List Command) : Failure → Prop
  | .report r => ModuleScript.Traced h commands r
  | _ => True

variable (h commands) in
theorem Failure.traced_of_unplaced {e : Failure} (he : e.unplaced = e) : e.Traced h commands := by
  cases e with
  | report r =>
    intro l hl
    have hnone : r.location = none := congrArg Report.location (Failure.report.inj he).symm
    rw [hnone] at hl
    cases hl
  | fault f => trivial
  | tooDeep => trivial

theorem traced_of_bare {α : Type} {x : Eval α} (hx : Bare x) :
    Fails (Failure.Traced h commands) x :=
  .of_bare (fun _ he => Failure.traced_of_unplaced h commands he) hx

/-- Only traced reports come out of the computations. -/
def tracing (h : Host) (commands : List Command) : Congruence :=
  failing (Failure.Traced h commands) fun _ he => Failure.traced_of_unplaced h commands he

theorem tracing_places {l : Location} (hl : NodeAt h commands l) :
    (tracing h commands).Places h l := by
  intro _ x _ hx m e k he
  obtain ⟨e', hm, rfl⟩ := located_eq_placed he
  cases e' with
  | report r =>
    -- a report keeps the place that it has, else it gets that of the node
    by_cases hr : r.location = none
    · exact hl.traced hr
    · unfold Failure.placed
      dsimp only
      rw [r.locate_of_location hr]
      exact hx m _ k hm
  | fault | tooDeep => trivial

theorem fails_read (hreads : Reads h commands file text) :
    Fails (Failure.Traced h commands) (lift (h.read file text)) := by
  refine fails_lift fun e he => ?_
  cases e with
  | report r => exact traced_of_read hreads he
  | fault f => trivial
  | tooDeep => trivial

theorem tracing_files (h : Host) (commands : List Command) : (tracing h commands).Files h where
  toBrackets := failing_brackets _
  reads hp _ ht := fails_read (.imported ⟨_, _, hp⟩ ht)

/-! ## Runs -/

/-- The task is not a node, or one of a program that the session evaluates. -/
def AtNode (h : Host) (commands : List Command) (t : Task) : Prop :=
  ∀ c s, t = .eval c s → NodeAt h commands s.location

/-- As long as only nodes of programs that the session evaluates are performed, reports are traced. -/
theorem watched_traces (h : Host) (commands : List Command) (depth : Nat) :
    (tracing h commands).Follows
      (watched h (fun t _ => AtNode h commands t) (fun _ => throw .tooDeep) depth)
      (watched h (fun t _ => AtNode h commands t) (fun _ => throw .tooDeep) depth) := by
  induction depth with
  | zero =>
    rintro t m _ k ⟨⟩
    trivial
  | succ depth ih =>
    intro t m e k he
    -- a task that is at no such node is not performed
    by_cases ht : AtNode h commands t
    · rw [watched_of_check ht] at he
      refine Congruence.step (t := t) ih ((tracing_files h commands).loads_below ih) ?_ m e k he
      cases t with
      | eval c s => exact tracing_places (ht c s rfl)
      | apply | ask | wait => trivial
    · rw [watched_of_not_check ht] at he
      cases he
      trivial

variable {self : Step}

theorem fails_runProgram (hf : (tracing h commands).Follows self self) (source : Text)
    (program : Program) : Fails (Failure.Traced h commands) (runProgram h self source program) := by
  have hexecute : Fails (Failure.Traced h commands)
      (execute self source globalFrame [preludeFrame, builtinsFrame] program) :=
    Congruence.execute (C := tracing h commands) hf source _ _ program
  intro m e k he
  unfold runProgram guarded at he
  split at he
  · cases he
    trivial
  · split at he
    · cases he
      exact Failure.traced_of_unplaced h commands rfl
    · exact hexecute m e k he

theorem fails_perform (hf : (tracing h commands).Follows self self) {command : Command}
    (hc : command ∈ commands) : Fails (Failure.Traced h commands) (command.perform h self) := by
  cases command with
  | source name text =>
    refine (fails_read (.source hc)).bind fun program => ?_
    exact (fails_runProgram hf name program).bind fun _ => traced_of_bare (bare_pure _)
  | file name =>
    have hstart : (tracing h commands).Rel (Command.perform h self (.file name))
        (Command.perform h self (.file name)) := by
      refine Congruence.given (Failure.bare_lift _) fun text ht => ?_
      have hreads : Reads h commands (Path.ofText name).text text := .file hc (ok_of_lift ht)
      refine Fails.bind (traced_of_bare (bare_change fun m => m.bare_beginLoading _)) fun _ => ?_
      refine Fails.bind (Fails.mending ?_ _) fun r => ?_
      · exact (fails_read hreads).bind fun program => fails_runProgram hf _ program
      · exact (traced_of_bare (bare_change fun m => m.bare_finishLoading _ _)).bind fun _ =>
          traced_of_bare (bare_pure _)
    exact hstart

/-- Every report with which a command of a session ends is about what it points to. -/
theorem perform_traced (h : Host) (input : Text) (history : List Command) (command : Command)
    {m : Machine}
    (hr : command.perform h h.runner (after h input history).machine = .error (.report r) m) :
    Traced h (history ++ [command]) r := by
  have hserving : (Conduct.sound (NodeAt h (history ++ [command]))).Serving h
      (history ++ [command]) :=
    Conduct.sound_serving fun _ _ _ hreads hp _ hs => isSound_nodeAt hreads hp hs
  have hblank : (Conduct.sound (NodeAt h (history ++ [command]))).Fits ⟨⟩ (blank input) :=
    blank_holds (fun _ => Value.carries_plain rfl) input
  obtain ⟨-, w, -, hfits⟩ := Conduct.after_fits hserving hblank
    fun c hc => List.mem_append_left [command] hc
  have hmem : command ∈ history ++ [command] := List.mem_append_right history (.head [])
  have hnode : ∀ w m t, (Conduct.sound (NodeAt h (history ++ [command]))).Fits w m →
      (Conduct.sound (NodeAt h (history ++ [command]))).Allows w t →
      AtNode h (history ++ [command]) t := by
    rintro _ _ _ - ht c s rfl
    obtain ⟨parent, hs⟩ : s.IsSound (NodeAt h (history ++ [command])) := ht
    exact hs.locations s.location s.location_mem_locations
  have hwatched : command.perform h (watched h (fun t _ => AtNode h (history ++ [command]) t)
      (fun _ => throw .tooDeep) h.depth) (after h input history).machine = .error (.report r) m :=
    (Conduct.throughout_perform hserving hnode hfits hmem h.depth _).trans hr
  exact fails_perform (watched_traces h (history ++ [command]) h.depth) hmem _ _ _ hwatched

/-! ## Files that a session reads -/

theorem Session.Reads.text_eq (hd : h.disk.directory.Normal) {text' : Text}
    (hreads : Reads h commands file text') (hfile : h.disk.readText (Path.ofText file) = .ok text)
    (hprelude : file ≠ "<prelude>") (hgiven : ∀ t, Command.source file t ∈ commands → t = text) :
    text' = text := by
  cases hreads with
  | prelude => exact absurd rfl hprelude
  | source hc => exact hgiven _ hc
  | file hc ht =>
    rw [Path.ofText_text (Path.normal_ofText _), ht] at hfile
    exact Except.ok.inj hfile
  | imported hp ht =>
    rw [Path.ofText_text (hp.normal hd), ht] at hfile
    exact Except.ok.inj hfile

namespace Pointing

/-- The last of the commands of a session ends with the report, or checking a file does. -/
inductive Raised (h : Host) : List Command → Report → Prop where
  | performed {input : Text} {history : List Command} {command : Command} {r : Report}
      {m : Machine} :
      command.perform h h.runner (after h input history).machine = .error (.report r) m →
      Raised h (history ++ [command]) r
  | checked {file text : Text} {r : Report} : h.disk.readText (Path.ofText file) = .ok text →
      h.read file text = .error (.report r) → Raised h [] r

/-- Reports with a place in a file are about what the file has there. -/
theorem Raised.finds (hd : h.disk.directory.Normal) (hr : Raised h commands r) {l : Location}
    (hl : r.location = some l) (hfile : h.disk.readText (Path.ofText l.file) = .ok text)
    (hprelude : l.file ≠ "<prelude>") (hgiven : ∀ t, Command.source l.file t ∈ commands → t = text) :
    r.context = h.excerptAt l ∧
      ∃ p rest, Scan.Finds (Location.start l.file) text l p rest ∧ Blames l.file text l r p := by
  cases hr with
  | performed hr =>
    obtain ⟨hcontext, text', p, rest, hreads, hfinds⟩ := perform_traced h _ _ _ hr l hl
    obtain rfl := hreads.text_eq hd hfile hprelude hgiven
    exact ⟨hcontext, p, rest, hfinds⟩
  | @checked file source _ ht hr =>
    -- a check reports what reading the text under the name of the file does
    have htraced : Traced h [.source file source] r :=
      traced_of_read (.source (.head _)) hr
    obtain ⟨hcontext, text', p, rest, hreads, hfinds⟩ := htraced l hl
    have hsource : ∀ t, Command.source l.file t ∈ [Command.source file source] → t = text := by
      intro t hc
      cases List.mem_singleton.mp hc
      rw [ht] at hfile
      exact Except.ok.inj hfile
    obtain rfl := hreads.text_eq hd hfile hprelude hsource
    exact ⟨hcontext, p, rest, hfinds⟩

/-- A report with a place in a file shows the lines of the file from two before to two behind its own,
as far as there are any, if these and the ones before them hold no line boundaries. What the report is
about begins at its column of its line. -/
theorem lines_shown (hd : h.disk.directory.Normal) {l : Location} (hr : Raised h commands r)
    (hl : r.location = some l) (hfile : h.disk.readText (Path.ofText l.file) = .ok text)
    (hplain : text.PlainTo (l.line + 2)) (hprelude : l.file ≠ "<prelude>")
    (hgiven : ∀ t, Command.source l.file t ∈ commands → t = text) :
    1 ≤ l.line ∧ l.line ≤ text.newlineLines.length ∧
      r.context = some (Text.join [CodePoint.newline] (Excerpt.window text l.line
        (max 1 (l.line - 2)) (min text.newlineLines.length (l.line + 2)))) ∧
      ∃ p rest, Scan.Finds (Location.start l.file) text l p rest ∧ Blames l.file text l r p ∧
        (text.lineAt l.line).drop (l.column - 1) = rest.firstLine := by
  obtain ⟨hcontext, p, rest, hfinds, hblames⟩ := hr.finds hd hl hfile hprelude hgiven
  have hplace : 1 ≤ l.line ∧ l.line ≤ text.newlineLines.length ∧
      (text.lineAt l.line).drop (l.column - 1) = rest.firstLine := by
    obtain ⟨hreaches, -⟩ := hfinds
    obtain ⟨before, rfl, hplace⟩ := hreaches.exists_append
    rw [hplace]
    exact Location.lineAt_past l.file before _ _
  obtain ⟨hfirst, hlast, hline⟩ := hplace
  refine ⟨hfirst, hlast, ?_, p, rest, hfinds, hblames, hline⟩
  rw [hcontext]
  unfold Host.excerptAt Disk.excerpt?
  rw [hfile]
  exact Excerpt.excerpt_of_plain hplain hfirst hlast

/-- A file with one of its lines at fault. A later one holds a form feed. -/
def dividing : Host :=
  hostWith [(["main.rs"], "let a = 1\na / 0\n\n\n// b\x0cc\n")]

theorem lines_shown_division :
    dividing.disk.directory.Normal ∧ Text.PlainTo "let a = 1\na / 0\n\n\n// b\x0cc\n" 4 ∧
      ∃ r, Raised dividing [.file "main.rs"] r ∧ r.location = some ⟨"main.rs", 2, 3⟩ ∧
        r.context = some "     1 | let a = 1\n>    2 | a / 0\n     3 | \n     4 | " ∧
        ∃ p rest, Scan.Finds (Location.start "main.rs") "let a = 1\na / 0\n\n\n// b\x0cc\n"
            ⟨"main.rs", 2, 3⟩ p rest ∧ rest.firstLine = "/ 0" := by
  have hd : dividing.disk.directory.Normal := ⟨by decide, by decide⟩
  have hplain : Text.PlainTo "let a = 1\na / 0\n\n\n// b\x0cc\n" 4 := by decide +kernel
  have hfails : failsWith (fun e => e.location == some ⟨"main.rs", 2, 3⟩)
      ((Command.file "main.rs").perform dividing dividing.runner
        (after dividing "" []).machine) = true := by decide +kernel
  obtain ⟨r, m, hr, htest⟩ := failsWith_eq_true hfails
  have hraised : Raised dividing ([] ++ [.file "main.rs"]) r := .performed hr
  have hl := eq_of_beq htest
  have hgiven : ∀ t, Command.source "main.rs" t ∈ [] ++ [Command.file "main.rs"] →
      t = "let a = 1\na / 0\n\n\n// b\x0cc\n" := by
    intro t ht
    cases List.mem_singleton.mp ht
  obtain ⟨-, -, hcontext, p, rest, hfinds, -, hline⟩ :=
    lines_shown hd hraised hl (by decide +kernel) hplain (by decide) hgiven
  refine ⟨hd, hplain, r, hraised, hl, hcontext.trans (by decide +kernel), p, rest, hfinds, ?_⟩
  rw [← hline]
  decide +kernel

/-- A file with a form feed in a comment. -/
def paged : Host :=
  hostWith [(["main.rs"], "// a\x0cb\n1 / 0")]

/-- The excerpt marks the second half of the comment as the second line, and the report is about the
second line of the file. -/
theorem other_line_marked :
    paged.disk.readText (Path.ofText "main.rs") = .ok "// a\x0cb\n1 / 0" ∧
      Text.lineAt "// a\x0cb\n1 / 0" 2 = "1 / 0" ∧
      ∃ r m, (Command.file "main.rs").perform paged paged.runner (start paged "").machine =
          .error (.report r) m ∧
        r.location = some ⟨"main.rs", 2, 3⟩ ∧
        r.context = some "     1 | // a\n>    2 | b\n     3 | 1 / 0" := by
  have hfails : failsWith (fun e => e.location == some ⟨"main.rs", 2, 3⟩ &&
      e.context == some "     1 | // a\n>    2 | b\n     3 | 1 / 0")
      ((Command.file "main.rs").perform paged paged.runner (start paged "").machine) = true := by
    decide +kernel
  obtain ⟨r, m, hr, htest⟩ := failsWith_eq_true hfails
  obtain ⟨hl, hcontext⟩ := Bool.and_eq_true_iff.mp htest
  exact ⟨by decide +kernel, by decide +kernel, r, m, hr, eq_of_beq hl, eq_of_beq hcontext⟩

end Pointing

end ModuleScript
