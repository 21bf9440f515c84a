import Mathlib.Logic.Relation
import ModuleScript.Console.Commands
import ModuleScript.Proofs.Congruence.Consuming
import ModuleScript.Proofs.Console.Failures

/-!
# How commands of the console end

Files are run up to the first that fails; every file is checked; lines are answered until the input
ends. Only a failure that cannot be told stops a command before that, and the command then ends with
this very failure: a fault of evaluation or of the reading of a file, a text that output refuses, or a
value that is nested too deep for the text that would tell it.
-/

set_option autoImplicit false

namespace ModuleScript

open Eval Session

theorem Text.splitLine_append (t : Text) : (Text.splitLine t).1 ++ (Text.splitLine t).2 = t := by
  have hline := List.prefix_iff_eq_append.mp (List.takeWhile_prefix (l := t) (· != CodePoint.newline))
  unfold Text.splitLine
  dsimp only
  split
  · rename_i hdrop
    rw [hdrop] at hline
    exact hline
  · rename_i newline rest hdrop
    rw [hdrop] at hline
    rw [List.append_assoc]
    exact hline

theorem Text.eq_nil_of_splitLine {t : Text} (ht : (Text.splitLine t).1 = []) : t = [] := by
  have happend := Text.splitLine_append t
  unfold Text.splitLine at ht happend
  dsimp only at ht happend
  split at ht
  · rename_i hdrop
    rw [hdrop] at happend
    dsimp only at happend ht
    rw [← happend, ht]
    rfl
  · exact absurd ht (List.append_ne_nil_of_right_ne_nil _ (List.cons_ne_nil _ _))

namespace Console

variable {h : Host} {input file output left complaint : Text} {files before : List Text}
  {s s' : Session} {f f' : Failure} {fault : Fault}

/-- A failure that is not told is a fault that is not of the file system, unless it is one of depth. -/
theorem complaintOn_error (hc : complaintOn file f = .error f') :
    f' = f ∧ (f = .tooDeep ∨ ∃ fault, f = .fault fault ∧ ∀ trouble t, fault ≠ .file trouble t) := by
  cases f with
  | report r => cases hc
  | tooDeep =>
    cases hc
    exact ⟨rfl, .inl rfl⟩
  | fault g =>
    cases g with
    | file trouble t => cases hc
    | _ =>
      cases hc
      exact ⟨rfl, .inr ⟨_, rfl, fun _ _ hg => by cases hg⟩⟩

theorem printed_of_ok {t : Text} (ht : h.checkOutput t = .ok ⟨⟩) : printed h t = .ok (t ++ "\n") := by
  unfold printed
  rw [ht]
  rfl

theorem printed_of_error {t : Text} (ht : h.checkOutput t = .error fault) :
    printed h t = .error (.fault fault) := by
  unfold printed
  rw [ht]
  rfl

/-! ## Running files -/

/-- What comes of running a file in a session of its own, with this input. -/
def runFile (h : Host) (input file : Text) : Except Failure Value × Session :=
  (Session.start h input).perform (evalFile · file)

/-- Each of the files runs without failure on the input that those before it have left. -/
inductive Succeed (h : Host) : Text → List Text → Text → Text → Prop where
  | nil (input : Text) : Succeed h input [] [] input
  | cons {input file : Text} {v : Value} {s : Session} {rest : List Text} {output left : Text} :
      runFile h input file = (.ok v, s) → Succeed h s.machine.input rest output left →
      Succeed h input (file :: rest) (s.machine.output ++ output) left

/-- How running the files may end: all of them run; or there is a first one that fails, and then it
is told what is wrong with it, unless the failure is a fault that cannot be told. -/
inductive Run (h : Host) (input : Text) (files : List Text) : Outcome → Prop where
  | all {output left : Text} : Succeed h input files output left →
      Run h input files ⟨.ok 0, output, [], left⟩
  | failed {before later : List Text} {file output left complaint : Text} {f : Failure}
      {s : Session} : files = before ++ file :: later → Succeed h input before output left →
      runFile h left file = (.error f, s) → complaintOn file f = .ok complaint →
      Run h input files ⟨.ok 1, output ++ s.machine.output, complaint ++ "\n", s.machine.input⟩
  | ended {before later : List Text} {file output left : Text} {fault : Fault} {s : Session} :
      files = before ++ file :: later → Succeed h input before output left →
      runFile h left file = (.error (.fault fault), s) → (∀ trouble t, fault ≠ .file trouble t) →
      Run h input files
        ⟨.error (.fault fault), output ++ s.machine.output, [], s.machine.input⟩

/-- A file before the others that runs without failure. -/
theorem Run.cons {v : Value} {o : Outcome} (hf : runFile h input file = (.ok v, s))
    (ho : Run h s.machine.input files o) : Run h input (file :: files) (o.after s.machine.output) := by
  cases ho with
  | all hall => exact .all (.cons hf hall)
  | failed hfiles hbefore hrun hc =>
    rw [Outcome.after, ← List.append_assoc]
    exact .failed (congrArg (file :: ·) hfiles) (.cons hf hbefore) hrun hc
  | ended hfiles hbefore hrun hfault =>
    rw [Outcome.after, ← List.append_assoc]
    exact .ended (congrArg (file :: ·) hfiles) (.cons hf hbefore) hrun hfault

theorem perform_ne_tooDeep (s : Session) (command : Command) (s' : Session) :
    s.perform (fun h => command.perform h h.runner) ≠ (.error .tooDeep, s') := by
  intro he
  unfold Session.perform at he
  split at he
  · cases he
  · rename_i hr
    cases he
    exact Shallow.perform s.host command s.machine _ hr

theorem runFiles_run (h : Host) (input : Text) (files : List Text) :
    Run h input files (runFiles h input files) := by
  induction files generalizing input with
  | nil => exact .all (.nil input)
  | cons file rest ih =>
    cases hrun : runFile h input file with
    | mk result s =>
      unfold runFiles
      rw [show (Session.start h input).perform (evalFile · file) = (result, s) from hrun]
      cases result with
      | ok v => exact (ih s.machine.input).cons hrun
      | error f =>
        dsimp only
        cases hc : complaintOn file f with
        | ok complaint => exact .failed rfl (.nil input) hrun hc
        | error f' =>
          obtain ⟨rfl, rfl | ⟨fault, rfl, hfault⟩⟩ := complaintOn_error hc
          · exact absurd hrun (perform_ne_tooDeep _ (.file file) s)
          · exact .ended rfl (.nil input) hrun hfault

/-! ## Checking files -/

/-- What a check finds in a file: nothing, or something that it can tell. -/
inductive Finding (h : Host) (file : Text) : Option Text → Prop where
  | right {source : Text} {program : Program} : h.disk.readText (Path.ofText file) = .ok source →
      h.read file source = .ok program → Finding h file none
  | unread {fault : Fault} {complaint : Text} :
      h.disk.readText (Path.ofText file) = .error fault →
      complaintOn file (.fault fault) = .ok complaint → Finding h file (some complaint)
  | wrong {source complaint : Text} {f : Failure} :
      h.disk.readText (Path.ofText file) = .ok source → h.read file source = .error f →
      complaintOn file f = .ok complaint → Finding h file (some complaint)

/-- What a check of a file cannot tell: why its text cannot be had, that a numeral is too long, or what
output refuses. -/
inductive Baffling (h : Host) (file : Text) : Fault → Prop where
  | text {fault : Fault} : h.disk.readText (Path.ofText file) = .error fault →
      Disk.Baffles fault → Baffling h file fault
  | numeral {source : Text} {fault : Fault} : h.disk.readText (Path.ofText file) = .ok source →
      h.read file source = .error (.fault fault) → Scan.Stops fault → Baffling h file fault
  | refused {finding : Option Text} {fault : Fault} : Finding h file finding →
      h.checkOutput (verdict file finding) = .error fault → Baffling h file fault

theorem check_of_unread (ht : h.disk.readText (Path.ofText file) = .error fault) :
    check h file = (complaintOn file (.fault fault)).map some := by
  unfold check
  rw [ht]
  rfl

section Read

variable {source : Text} (ht : h.disk.readText (Path.ofText file) = .ok source)

include ht

theorem check_of_right {program : Program} (hr : h.read file source = .ok program) :
    check h file = .ok none := by
  unfold check
  rw [ht]
  dsimp only [Failure.lift, Except.mapError, bind, Except.bind]
  rw [hr]

theorem check_of_wrong (hr : h.read file source = .error f) :
    check h file = (complaintOn file f).map some := by
  unfold check
  rw [ht]
  dsimp only [Failure.lift, Except.mapError, bind, Except.bind]
  rw [hr]

end Read

theorem check_ends (h : Host) (file : Text) :
    (∃ finding, check h file = .ok finding ∧ Finding h file finding) ∨
      ∃ fault, check h file = .error (.fault fault) ∧ Baffling h file fault := by
  cases ht : h.disk.readText (Path.ofText file) with
  | error g =>
    rw [check_of_unread ht]
    cases hc : complaintOn file (.fault g) with
    | ok complaint => exact .inl ⟨some complaint, rfl, .unread ht hc⟩
    | error f =>
      obtain ⟨rfl, hf | ⟨fault, hf, hfault⟩⟩ := complaintOn_error hc
      · cases hf
      · cases hf
        rcases Disk.readText_error ht with ⟨trouble, t, he⟩ | hb
        · exact absurd he (hfault trouble t)
        · exact .inr ⟨_, rfl, .text ht hb⟩
  | ok source =>
    cases hr : h.read file source with
    | ok program => exact .inl ⟨none, check_of_right ht hr, .right ht hr⟩
    | error f =>
      rw [check_of_wrong ht hr]
      cases hc : complaintOn file f with
      | ok complaint => exact .inl ⟨some complaint, rfl, .wrong ht hr hc⟩
      | error f' =>
        obtain ⟨rfl, -⟩ := complaintOn_error hc
        rcases Host.read_error hr with ⟨r, rfl⟩ | ⟨fault, rfl, hfault⟩
        · cases hc
        · exact .inr ⟨_, rfl, .numeral ht hr hfault⟩

/-- What is written about files when each of them has been checked, and how many are wrong. -/
inductive Findings (h : Host) : List Text → Text → Nat → Prop where
  | nil : Findings h [] [] 0
  | cons {file output : Text} {finding : Option Text} {rest : List Text} {wrong : Nat} :
      Finding h file finding → h.checkOutput (verdict file finding) = .ok ⟨⟩ →
      Findings h rest output wrong →
      Findings h (file :: rest) (verdict file finding ++ "\n" ++ output)
        (if finding.isSome then wrong + 1 else wrong)

def summary (files : List Text) (wrong : Nat) : Text :=
  "Checked " ++ Decimal.ofNat files.length ++ " file(s), " ++ Decimal.ofNat wrong ++
    " with errors\n"

/-- How checking the files may end: there is a line about each of them and a last one that counts
them; or there is a first file about which a check cannot tell what it finds. -/
inductive Lint (h : Host) (input : Text) (files : List Text) : Outcome → Prop where
  | all {output : Text} {wrong : Nat} : Findings h files output wrong →
      Lint h input files ⟨.ok (if wrong = 0 then 0 else 1), output ++ summary files wrong, [], input⟩
  | ended {before later : List Text} {file output : Text} {wrong : Nat} {fault : Fault} :
      files = before ++ file :: later → Findings h before output wrong → Baffling h file fault →
      Lint h input files ⟨.error (.fault fault), output, [], input⟩

/-- A file about which there is something to tell that output takes. -/
theorem checkAll_of_told {finding : Option Text} (hc : check h file = .ok finding)
    (ht : h.checkOutput (verdict file finding) = .ok ⟨⟩) (rest : List Text) :
    checkAll h (file :: rest) =
      ((checkAll h rest).1.map fun n => if finding.isSome then n + 1 else n,
        verdict file finding ++ "\n" ++ (checkAll h rest).2) := by
  rw [checkAll, hc]
  dsimp only [bind, Except.bind]
  rw [printed_of_ok ht]
  rfl

theorem checkAll_of_unchecked (hc : check h file = .error f) (rest : List Text) :
    checkAll h (file :: rest) = (.error f, []) := by
  rw [checkAll, hc]
  rfl

theorem checkAll_of_refused {finding : Option Text} (hc : check h file = .ok finding)
    (ht : h.checkOutput (verdict file finding) = .error fault) (rest : List Text) :
    checkAll h (file :: rest) = (.error (.fault fault), []) := by
  rw [checkAll, hc]
  dsimp only [bind, Except.bind]
  rw [printed_of_error ht]

/-- Of the first file either something is told, or it is the first about which it is not. -/
theorem checkAll_cons_ends (h : Host) (file : Text) (rest : List Text) :
    (∃ finding, Finding h file finding ∧ h.checkOutput (verdict file finding) = .ok ⟨⟩ ∧
      checkAll h (file :: rest) =
        ((checkAll h rest).1.map fun n => if finding.isSome then n + 1 else n,
          verdict file finding ++ "\n" ++ (checkAll h rest).2)) ∨
      ∃ fault, Baffling h file fault ∧ checkAll h (file :: rest) = (.error (.fault fault), []) := by
  rcases check_ends h file with ⟨finding, hc, hfound⟩ | ⟨fault, hc, hbaffling⟩
  · cases ht : h.checkOutput (verdict file finding) with
    | ok u => exact .inl ⟨finding, hfound, ht, checkAll_of_told hc ht rest⟩
    | error fault => exact .inr ⟨fault, .refused hfound ht, checkAll_of_refused hc ht rest⟩
  · exact .inr ⟨fault, hbaffling, checkAll_of_unchecked hc rest⟩

theorem checkAll_ends (h : Host) (files : List Text) :
    (∃ wrong output, checkAll h files = (.ok wrong, output) ∧ Findings h files output wrong) ∨
      ∃ fault output before file later wrong, checkAll h files = (.error (.fault fault), output) ∧
        files = before ++ file :: later ∧ Findings h before output wrong ∧
          Baffling h file fault := by
  induction files with
  | nil => exact .inl ⟨0, [], rfl, .nil⟩
  | cons file rest ih =>
    rcases checkAll_cons_ends h file rest with ⟨finding, hfound, ht, hall⟩ | ⟨fault, hbaffling, hall⟩
    · rw [hall]
      rcases ih with ⟨n, output, hrest, hrests⟩ |
        ⟨fault, output, before, other, later, n, hrest, rfl, hbefore, hother⟩
      · rw [hrest]
        exact .inl ⟨_, _, rfl, .cons hfound ht hrests⟩
      · rw [hrest]
        exact .inr ⟨fault, _, file :: before, other, later, _, rfl, rfl, .cons hfound ht hbefore,
          hother⟩
    · exact .inr ⟨fault, [], [], file, rest, 0, hall, rfl, .nil, hbaffling⟩

theorem lintFiles_lint (h : Host) (input : Text) (files : List Text) :
    Lint h input files (lintFiles h input files) := by
  unfold lintFiles
  rcases checkAll_ends h files with ⟨wrong, output, hc, hall⟩ |
    ⟨fault, output, before, file, later, wrong, hc, hfiles, hbefore, hfile⟩
  · rw [hc]
    exact .all hall
  · rw [hc]
    exact .ended hfiles hbefore hfile

/-! ## Answering lines -/

/-- The next line of the input, with its newline if it has one. -/
def line (s : Session) : Text := (Text.splitLine s.machine.input).1

/-- The session when it has asked for a line and taken it. -/
def taken (s : Session) : Session :=
  { s with
    machine := { s.machine.write "> " with input := (Text.splitLine s.machine.input).2 } }

/-- The session when it has told a text. -/
def told (s : Session) (t : Text) : Session := { s with machine := s.machine.write t }

/-- What is told about a line: nothing if its value is the unit; otherwise its value, for the text of
which there must be the levels outside evaluation; or what is wrong with it. -/
inductive Reply (h : Host) : Except Failure Value → Text → Prop where
  | unit : Reply h (.ok .unit) []
  | value {v : Value} {t : Text} : v ≠ .unit → h.platform.echo v.shape ≤ h.ownDepth →
      v.nested = .ok t → h.checkOutput t = .ok ⟨⟩ → Reply h (.ok v) (t ++ "\n")
  | report {r : Report} : h.checkOutput r.render = .ok ⟨⟩ →
      Reply h (.error (.report r)) (r.render ++ "\n")

/-- Nothing can be told about a line: its evaluation ends in a fault; its value is nested too deep or
has too long a numeral for its text; or output refuses the text. -/
inductive Untold (h : Host) : Except Failure Value → Failure → Prop where
  | evaluation {fault : Fault} : Untold h (.error (.fault fault)) (.fault fault)
  | tooDeep {v : Value} : v ≠ .unit → h.ownDepth < h.platform.echo v.shape →
      Untold h (.ok v) .tooDeep
  | tooLong {v : Value} : v ≠ .unit → h.platform.echo v.shape ≤ h.ownDepth →
      v.nested = .error .tooManyDigits → Untold h (.ok v) (.fault .tooManyDigits)
  | value {v : Value} {t : Text} {fault : Fault} : v ≠ .unit →
      h.platform.echo v.shape ≤ h.ownDepth → v.nested = .ok t → h.checkOutput t = .error fault →
      Untold h (.ok v) (.fault fault)
  | report {r : Report} {fault : Fault} : h.checkOutput r.render = .error fault →
      Untold h (.error (.report r)) (.fault fault)

/-- A line has been taken, and evaluated and answered if it is not blank. -/
inductive Turn (s : Session) : Session → Prop where
  | blank : line s ≠ [] → (line s).all CodePoint.isBlank = true → Turn s (taken s)
  | answered {result : Except Failure Value} {s' : Session} {t : Text} :
      (line s).all CodePoint.isBlank = false →
      (taken s).perform (evalSource · "<repl>" (line s)) = (result, s') → Reply s'.host result t →
      Turn s (told s' t)

/-- How a dialogue may end: every line has had its turn, and the end of the input has been met; or
the turn has come to a line about which nothing can be told. -/
inductive Dialogue (s : Session) : Outcome → Prop where
  | all {s' : Session} : Relation.ReflTransGen Turn s s' → s'.machine.input = [] →
      Dialogue s ⟨.ok 0, s'.machine.output ++ "> " ++ "\n", [], []⟩
  | ended {s' s'' : Session} {result : Except Failure Value} {f : Failure} :
      Relation.ReflTransGen Turn s s' → (line s').all CodePoint.isBlank = false →
      (taken s').perform (evalSource · "<repl>" (line s')) = (result, s'') →
      Untold s''.host result f → Dialogue s ⟨.error f, s''.machine.output, [], s''.machine.input⟩

theorem ofInt_error {i : Int} (hi : Decimal.ofInt? i = .error fault) : fault = .tooManyDigits := by
  unfold Decimal.ofInt? at hi
  split at hi
  · cases hi
  · cases hi
    rfl

mutual

theorem nested_error {v : Value} (hv : v.nested = .error fault) : fault = .tooManyDigits := by
  cases v with
  | number n =>
    cases n with
    | float x => cases hv
    | int i =>
      rw [Value.nested, Number.text] at hv
      exact ofInt_error hv
  | list items =>
    unfold Value.nested at hv
    cases hi : Value.nestedItems items with
    | ok parts =>
      rw [hi] at hv
      cases hv
    | error g =>
      rw [hi] at hv
      cases hv
      exact nestedItems_error hi
  | _ => cases hv

theorem nestedItems_error {items : List Value} (hi : Value.nestedItems items = .error fault) :
    fault = .tooManyDigits := by
  cases items with
  | nil => cases hi
  | cons v vs =>
    unfold Value.nestedItems at hi
    cases hv : v.nested with
    | error g =>
      rw [hv] at hi
      cases hi
      exact nested_error hv
    | ok part =>
      rw [hv] at hi
      cases hvs : Value.nestedItems vs with
      | error g =>
        rw [hvs] at hi
        cases hi
        exact nestedItems_error hvs
      | ok parts =>
        rw [hvs] at hi
        cases hi

end

theorem echo_of_le {v : Value} (hv : h.platform.echo v.shape ≤ h.ownDepth) :
    echo h v = Failure.lift v.nested :=
  if_neg (Nat.not_lt.mpr hv)

theorem reply_value {v : Value} (hv : v ≠ .unit) :
    reply h (.ok v) = echo h v >>= fun t => printed h t := by
  cases v with
  | unit => exact absurd rfl hv
  | _ => rfl

theorem reply_value_ends {v : Value} (hv : v ≠ .unit) :
    (∃ t, reply h (.ok v) = .ok t ∧ Reply h (.ok v) t) ∨
      ∃ f, reply h (.ok v) = .error f ∧ Untold h (.ok v) f := by
  rw [reply_value hv]
  rcases Nat.lt_or_ge h.ownDepth (h.platform.echo v.shape) with hdeep | hshallow
  · have hecho : echo h v = .error .tooDeep := if_pos hdeep
    rw [hecho]
    exact .inr ⟨_, rfl, .tooDeep hv hdeep⟩
  rw [echo_of_le hshallow]
  cases hn : v.nested with
  | error fault =>
    obtain rfl := nested_error hn
    exact .inr ⟨_, rfl, .tooLong hv hshallow hn⟩
  | ok t =>
    change (∃ t', printed h t = _ ∧ _) ∨ ∃ f, printed h t = _ ∧ _
    cases ht : h.checkOutput t with
    | ok u =>
      rw [printed_of_ok ht]
      exact .inl ⟨_, rfl, .value hv hshallow hn ht⟩
    | error fault =>
      rw [printed_of_error ht]
      exact .inr ⟨_, rfl, .value hv hshallow hn ht⟩

theorem reply_ends {result : Except Failure Value} (hr : result ≠ .error .tooDeep) :
    (∃ t, reply h result = .ok t ∧ Reply h result t) ∨
      ∃ f, reply h result = .error f ∧ Untold h result f := by
  cases result with
  | ok v =>
    by_cases hv : v = .unit
    · subst hv
      exact .inl ⟨[], rfl, .unit⟩
    · exact reply_value_ends hv
  | error f =>
    cases f with
    | tooDeep => exact absurd rfl hr
    | fault fault => exact .inr ⟨_, rfl, .evaluation⟩
    | report r =>
      change (∃ t', printed h r.render = _ ∧ _) ∨ ∃ f, printed h r.render = _ ∧ _
      cases ht : h.checkOutput r.render with
      | ok u =>
        rw [printed_of_ok ht]
        exact .inl ⟨_, rfl, .report ht⟩
      | error fault =>
        rw [printed_of_error ht]
        exact .inr ⟨_, rfl, .report ht⟩

/-- A line that is not blank is evaluated; then something is told about it, or nothing can be. -/
theorem answer_ends (s : Session) (line : Text) :
    ∃ result s', s.perform (evalSource · "<repl>" line) = (result, s') ∧
      ((∃ t, answer s line = (.ok ⟨⟩, told s' t) ∧ Reply s'.host result t) ∨
        ∃ f, answer s line = (.error f, s') ∧ Untold s'.host result f) := by
  cases hp : s.perform (evalSource · "<repl>" line) with
  | mk result s' =>
    refine ⟨result, s', rfl, ?_⟩
    have hdeep : result ≠ .error .tooDeep := by
      rintro rfl
      exact perform_ne_tooDeep s (.source "<repl>" line) s' hp
    unfold answer
    rw [hp]
    dsimp only
    rcases reply_ends (h := s'.host) hdeep with ⟨t, ht, hreply⟩ | ⟨f, hf, huntold⟩
    · exact .inl ⟨t, by rw [ht]; rfl, hreply⟩
    · exact .inr ⟨f, by rw [hf], huntold⟩

theorem perform_suffix {result : Except Failure Value} {line : Text}
    (hp : s.perform (evalSource · "<repl>" line) = (result, s')) :
    s'.machine.input <:+ s.machine.input := by
  have hperform := Consuming.perform_input s (.source "<repl>" line)
  rwa [show s.perform (fun h => (Command.source "<repl>" line).perform h h.runner) = _ from hp]
    at hperform

/-- What is left of the input when a line has been taken is shorter. -/
theorem taken_input (hs : line s ≠ []) :
    (taken s).machine.input.length < s.machine.input.length := by
  have happend := congrArg List.length (Text.splitLine_append s.machine.input)
  rw [List.length_append] at happend
  have hline : 0 < (line s).length := List.length_pos_iff.mpr hs
  unfold line at hline
  change (Text.splitLine s.machine.input).2.length < _
  omega

/-- A dialogue goes on as it does after its first turn. -/
theorem Dialogue.turn {o : Outcome} (ht : Turn s s') (hd : Dialogue s' o) : Dialogue s o := by
  cases hd with
  | all hturns hend => exact .all (.head ht hturns) hend
  | ended hturns hline hp hun => exact .ended (.head ht hturns) hline hp hun

theorem output_write (m : Machine) (t : Text) : (m.write t).output = m.output ++ t := by
  unfold Machine.output Machine.write
  rw [List.reverse_cons, List.flatten_append, List.flatten_singleton]

/-- With more rounds to go than there are code points the rounds come to the end of the input. -/
theorem rounds_dialogue (n : Nat) (s : Session) (hn : s.machine.input.length < n) :
    Dialogue s ⟨(rounds n s).1.map fun _ => 0, (rounds n s).2.machine.output, [],
      (rounds n s).2.machine.input⟩ := by
  induction n generalizing s with
  | zero => exact absurd hn (Nat.not_lt_zero _)
  | succ n ih =>
    -- A turn takes at least a code point of input, so there are rounds enough for the rest.
    have hshorter : ∀ {s' : Session}, line s ≠ [] →
        s'.machine.input <:+ (taken s).machine.input → s'.machine.input.length < n := by
      intro s' hline hs'
      have hrest := hs'.length_le
      have htaken := taken_input hline
      omega
    unfold rounds
    dsimp only
    split
    · rename_i rest hsplit
      have hline : line s = [] := congrArg Prod.fst hsplit
      have hend : s.machine.input = [] := Text.eq_nil_of_splitLine hline
      have houtput : ((s.machine.write "> ").write "\n").output = s.machine.output ++ "> " ++ "\n" := by
        rw [output_write, output_write]
      change Dialogue s ⟨.ok 0, ((s.machine.write "> ").write "\n").output, [], s.machine.input⟩
      rw [houtput, hend]
      exact .all .refl hend
    · rename_i l rest hne hsplit
      have hline : line s = l := congrArg Prod.fst hsplit
      have htaken : taken s = { s with machine := { s.machine.write "> " with input := rest } } := by
        unfold taken
        rw [show (Text.splitLine s.machine.input).2 = rest from congrArg Prod.snd hsplit]
      have hnot : line s ≠ [] := hline ▸ hne
      rw [← htaken, ← hline]
      split
      · rename_i hblank
        exact (ih _ (hshorter hnot List.suffix_rfl)).turn (.blank hnot hblank)
      · rename_i hblank
        have hblank' := Bool.eq_false_iff.mpr hblank
        obtain ⟨result, s', hp, ⟨t, ha, hreply⟩ | ⟨f, ha, huntold⟩⟩ := answer_ends (taken s) (line s)
        · rw [ha]
          have hinput : s'.machine.input <:+ (taken s).machine.input := perform_suffix hp
          have hturn : Turn s (told s' t) := .answered hblank' hp hreply
          exact (ih (told s' t) (hshorter hnot hinput)).turn hturn
        · rw [ha]
          exact .ended .refl hblank' hp huntold

theorem interact_dialogue (h : Host) (input : Text) :
    Dialogue (Session.start h input) (interact h input) :=
  rounds_dialogue (input.length + 1) _
    (Nat.lt_succ_of_le (Consuming.start_input h input).length_le)

/-! ## All commands -/

/-- A host with one file, whose only octet is no text. -/
def undecodableHost : Host where
  disk := ⟨⟨"/", ["w"]⟩, [(["w", "bad.rs"], [0xFF])]⟩
  recursionLimit := 1000
  hasPrelude := true

/-- Output is strict, and there are a few levels outside evaluation. -/
def narrowHost : Host :=
  { hostWith [(["main.rs"], "println(\"\\ud800\")")] with
    platform := { Platform.usual true with ownLimit := 30 } }

example :
    (runFiles narrowHost [] ["main.rs"]).ending = .error (.surrogates [0xD800] 0) := by
  decide +kernel

example : (interact narrowHost "[[[[[[1]]]]]]\n1\n").input = "1\n" ∧
    (interact narrowHost "[[[[[1]]]]]\n1\n").input = [] := by
  decide +kernel

end Console

end ModuleScript
