import Mathlib.Data.List.GetD
import Mathlib.Data.List.Induction
import Mathlib.Data.List.Intervals
import ModuleScript.Proofs.Reading.Onward
import ModuleScript.Report.Excerpt

/-!
# Lines of an excerpt

Locations count newlines, while excerpts split a text at every line boundary. Both number the lines
alike as far as newlines are the only boundaries: an excerpt consists of the lines around the one that
is marked, and what a location points to begins at its column of the marked line.
-/

set_option autoImplicit false

namespace ModuleScript

namespace Text

/-- The lines of a text without their newlines. A newline at the end starts no further line. -/
def newlineLines : Text → List Text
  | [] => []
  | c :: rest =>
    if c = CodePoint.newline then [] :: newlineLines rest else consPart c (newlineLines rest)

/-- The line with a number from one. -/
def lineAt (t : Text) (n : Nat) : Text := (newlineLines t).getD (n - 1) []

/-- The first lines, as many as given, hold no line boundaries. -/
def PlainTo (t : Text) (n : Nat) : Prop :=
  ∀ line ∈ (newlineLines t).take n, ∀ c ∈ line, isBoundary c = false

instance (t : Text) (n : Nat) : Decidable (t.PlainTo n) :=
  decidable_of_iff (((newlineLines t).take n).all fun line => line.all fun c => !isBoundary c)
    (by simp [PlainTo])

/-- The text up to its first newline. -/
def firstLine (t : Text) : Text := t.takeWhile (· != CodePoint.newline)

variable {t : Text}

theorem newlineLines_newline (t : Text) :
    newlineLines (CodePoint.newline :: t) = [] :: newlineLines t := if_pos rfl

theorem newlineLines_cons {c : CodePoint} (hc : c ≠ CodePoint.newline) (t : Text) :
    newlineLines (c :: t) = consPart c (newlineLines t) := if_neg hc

theorem firstLine_newline (t : Text) : firstLine (CodePoint.newline :: t) = [] :=
  List.takeWhile_cons_of_neg (by simp)

theorem firstLine_cons {c : CodePoint} (hc : c ≠ CodePoint.newline) (t : Text) :
    firstLine (c :: t) = c :: firstLine t :=
  List.takeWhile_cons_of_pos (bne_iff_ne.mpr hc)

/-- Every text but the empty one has a first line. -/
theorem exists_newlineLines (c : CodePoint) (t : Text) :
    ∃ ls, newlineLines (c :: t) = firstLine (c :: t) :: ls := by
  induction t generalizing c with
  | nil =>
    by_cases hc : c = CodePoint.newline
    · subst hc
      exact ⟨[], rfl⟩
    · rw [newlineLines_cons hc, firstLine_cons hc]
      exact ⟨[], rfl⟩
  | cons d t ih =>
    by_cases hc : c = CodePoint.newline
    · subst hc
      rw [newlineLines_newline, firstLine_newline]
      exact ⟨_, rfl⟩
    · obtain ⟨ls, hls⟩ := ih d
      rw [newlineLines_cons hc, firstLine_cons hc, hls]
      exact ⟨ls, rfl⟩

/-- What ends a line is not part of the ones behind it. -/
theorem newlineLines_append_newline {s : Text} (hs : CodePoint.newline ∉ s) (t : Text) :
    newlineLines (s ++ CodePoint.newline :: t) = s :: newlineLines t := by
  induction s with
  | nil => exact newlineLines_newline t
  | cons c s ih =>
    rw [List.cons_append, newlineLines_cons (Ne.symm (List.ne_of_not_mem_cons hs)),
      ih (List.not_mem_of_not_mem_cons hs)]
    rfl

theorem lines_newline (t : Text) : lines (CodePoint.newline :: t) = [] :: lines t := by
  cases t with
  | nil => rfl
  | cons d t =>
    have hboundary : isBoundary CodePoint.newline = true := rfl
    have hreturn : CodePoint.newline ≠ '\r' := by decide
    rw [lines, if_pos hboundary, if_neg fun h => hreturn h.1]

theorem lines_cons {c : CodePoint} (hc : isBoundary c = false) (t : Text) :
    lines (c :: t) = consPart c (lines t) :=
  (lines.eq_def _).trans (if_neg (ne_true_of_eq_false hc))

theorem take_consPart (c : CodePoint) (ls : List Text) (n : Nat) :
    (consPart c ls).take (n + 1) = consPart c (ls.take (n + 1)) := by
  cases ls with
  | nil => simp [consPart]
  | cons line ls => rfl

theorem forall_mem_consPart {P : CodePoint → Prop} {c : CodePoint} {ls : List Text} :
    (∀ line ∈ consPart c ls, ∀ d ∈ line, P d) ↔ P c ∧ ∀ line ∈ ls, ∀ d ∈ line, P d := by
  cases ls with
  | nil => simp [consPart]
  | cons line ls => simp [consPart, and_assoc]

/-- Newlines alone number the first lines, as long as those hold no other line boundaries. -/
theorem take_lines {n : Nat} (ht : t.PlainTo n) :
    (lines t).take n = (newlineLines t).take n := by
  induction t generalizing n with
  | nil => rfl
  | cons c t ih =>
    cases n with
    | zero => rfl
    | succ n =>
      unfold PlainTo at ht
      by_cases hc : c = CodePoint.newline
      · subst hc
        rw [newlineLines_newline] at ht ⊢
        have hrest : (lines t).take n = (newlineLines t).take n :=
          ih fun line hline => ht line (.tail _ hline)
        rw [lines_newline, List.take_succ_cons, List.take_succ_cons, hrest]
      · rw [newlineLines_cons hc, take_consPart] at ht ⊢
        obtain ⟨hplain, ht⟩ := forall_mem_consPart.mp ht
        rw [lines_cons hplain, take_consPart, ih ht]

end Text

/-! ## Locations and lines -/

/-- The line of a location behind a text is the one that the text leaves unfinished, and the column
says how much of it there is. -/
theorem Location.drop_newlineLines (file before : Text) :
    ∃ begun, CodePoint.newline ∉ begun ∧ ((start file).past before).column = begun.length + 1 ∧
      ∀ rest, (Text.newlineLines (before ++ rest)).drop (((start file).past before).line - 1) =
        Text.newlineLines (begun ++ rest) := by
  -- by the last code point, which alone tells how the line and the column change
  induction before using List.reverseRecOn with
  | nil => exact ⟨[], List.not_mem_nil, rfl, fun _ => rfl⟩
  | append_singleton before c ih =>
    obtain ⟨begun, hbegun, hcolumn, hdrop⟩ := ih
    have hpast : (start file).past (before ++ [c]) = ((start file).past before).after c :=
      past_append _ _ _
    by_cases hc : c = CodePoint.newline
    · subst hc
      refine ⟨[], List.not_mem_nil, ?_, fun rest => ?_⟩
      · rw [past_newline]
        rfl
      · have hline : ((start file).past before).line = before.count CodePoint.newline + 1 := by
          rw [line_past, Nat.add_comm]
          rfl
        have hrest := hdrop (CodePoint.newline :: rest)
        rw [hline, Nat.add_sub_cancel, Text.newlineLines_append_newline hbegun] at hrest
        rw [past_newline, List.append_assoc, List.singleton_append]
        change List.drop (1 + (_ + 1) - 1) _ = _
        rw [Nat.add_sub_cancel_left, ← List.drop_drop, hrest]
        rfl
    · have hafter : ((start file).past before).after c =
          ⟨_, ((start file).past before).line, ((start file).past before).column + 1⟩ := if_neg hc
      refine ⟨begun ++ [c], ?_, ?_, fun rest => ?_⟩
      · exact fun hm => (List.mem_append.mp hm).elim hbegun fun hm =>
          hc (List.mem_singleton.mp hm).symm
      · rw [hpast, hafter, hcolumn, List.length_append]
        rfl
      · rw [hpast, hafter, List.append_assoc, List.append_assoc]
        exact hdrop ([c] ++ rest)

/-- The line of a location is one of the text, and from the column on it is the rest of the text as far
as that line goes. -/
theorem Location.lineAt_past (file before : Text) (c : CodePoint) (rest : Text) :
    let l := (start file).past before
    1 ≤ l.line ∧ l.line ≤ (Text.newlineLines (before ++ c :: rest)).length ∧
      (Text.lineAt (before ++ c :: rest) l.line).drop (l.column - 1) =
        Text.firstLine (c :: rest) := by
  obtain ⟨begun, hbegun, hcolumn, hdrop⟩ := drop_newlineLines file before
  have hline : ((start file).past before).line = 1 + before.count CodePoint.newline :=
    line_past _ _
  have hfirst : ∃ ls, Text.newlineLines (begun ++ c :: rest) =
      (begun ++ Text.firstLine (c :: rest)) :: ls := by
    have hwhole : Text.firstLine (begun ++ c :: rest) = begun ++ Text.firstLine (c :: rest) :=
      Scan.takeWhile_append_plain hbegun _
    rw [← hwhole]
    cases begun with
    | nil => exact Text.exists_newlineLines c rest
    | cons d begun => exact Text.exists_newlineLines d _
  obtain ⟨ls, hls⟩ := hfirst
  have hat := hdrop (c :: rest)
  rw [hls] at hat
  generalize (start file).past before = l at hline hcolumn hat ⊢
  have hlt : l.line - 1 < (Text.newlineLines (before ++ c :: rest)).length := by
    refine Nat.lt_of_not_le fun hle => ?_
    rw [List.drop_eq_nil_of_le hle] at hat
    cases hat
  refine ⟨by omega, by omega, ?_⟩
  rw [List.drop_eq_getElem_cons hlt] at hat
  unfold Text.lineAt
  rw [List.getD_eq_getElem _ _ hlt, (List.cons.inj hat).1, hcolumn, Nat.add_sub_cancel,
    List.drop_left]

/-! ## Excerpts -/

namespace Excerpt

/-- The lines of a text from a first to a last one, in order, each with its own number. -/
def window (t : Text) (marked first last : Nat) : List Text :=
  (List.Ico first (last + 1)).map fun n => row marked n (t.lineAt n)

variable {t : Text}

theorem rows_of_plain {line : Nat} (ht : t.PlainTo (line + 2)) :
    rows t line radius =
      window t line (max 1 (line - 2)) (min t.newlineLines.length (line + 2)) := by
  have hfirst : ((line : Int) - radius - 1).toNat = line - 3 := by
    unfold radius
    omega
  have hstop : ((line : Int) + radius).toNat = line + 2 := by
    unfold radius
    omega
  unfold rows window
  dsimp only
  rw [hfirst, hstop, Text.take_lines ht]
  refine List.ext_getElem ?_ fun i hi hi' => ?_
  · simp only [List.length_map, List.length_drop, List.length_zipIdx, List.length_take,
      List.Ico.length]
    omega
  · have hnumber : max 1 (line - 2) + i = line - 3 + i + 1 := by omega
    have hlt : line - 3 + i < t.newlineLines.length := by
      simp only [List.length_map, List.length_drop, List.length_zipIdx, List.length_take] at hi
      omega
    simp only [List.getElem_map, List.getElem_drop, List.getElem_zipIdx, List.getElem_take,
      List.Ico, List.getElem_range', Nat.one_mul, Nat.zero_add]
    rw [hnumber, Text.lineAt, Nat.add_sub_cancel, List.getD_eq_getElem _ _ hlt]

/-- The excerpt around a line of the text shows the two lines before and behind it, as far as there are
any. -/
theorem excerpt_of_plain {line : Nat} (ht : t.PlainTo (line + 2)) (hfirst : 1 ≤ line)
    (hlast : line ≤ t.newlineLines.length) :
    excerpt t line radius = some (Text.join [CodePoint.newline]
      (window t line (max 1 (line - 2)) (min t.newlineLines.length (line + 2)))) := by
  have hrows := rows_of_plain ht
  unfold excerpt
  split
  · rename_i hnil
    rw [hnil] at hrows
    have hempty := congrArg List.length hrows
    simp only [window, List.length_nil, List.length_map, List.Ico.length] at hempty
    omega
  · rw [hrows]

end Excerpt

end ModuleScript
