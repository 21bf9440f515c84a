import ModuleScript.Proofs.Excerpts.Objections
import ModuleScript.Proofs.Grammar.WellFormed
import ModuleScript.Proofs.Lexemes.Patterns

/-!
# Tokens cover their source

A source consists of the lexemes of its tokens and of gaps between them, in order and without anything
lost or repeated, up to where scanning stops. Every token is located where its lexeme begins, so all
places that are taken from tokens, those of nodes and those of errors, are true.
-/

set_option autoImplicit false

namespace ModuleScript

open Scan

/-- The location behind a text that a source begins with: lines are counted by the newlines in it, and
columns from the last of them. -/
def Location.counted (file before : Text) : Location :=
  ⟨file, 1 + before.count CodePoint.newline,
    1 + (before.reverse.takeWhile (· != CodePoint.newline)).length⟩

theorem Location.after_counted (file before : Text) (c : CodePoint) :
    (counted file before).after c = counted file (before ++ [c]) := by
  unfold counted after
  rw [List.count_append, List.reverse_append]
  by_cases hc : c = CodePoint.newline
  · rw [if_pos hc, hc]
    rfl
  · have htake : ([c].reverse ++ before.reverse).takeWhile (· != CodePoint.newline) =
        c :: before.reverse.takeWhile (· != CodePoint.newline) :=
      List.takeWhile_cons_of_pos (bne_iff_ne.mpr hc)
    rw [if_neg hc, htake, List.count_cons_of_ne hc]
    rfl

/-- Behind the text `before` the source goes on with lexemes of the tokens and gaps between them. Either
this is all, or scanning stops at what is left. -/
inductive Covers (file : Text) : Text → Text → List Token → Option Failure → Prop where
  | ended {before gap : Text} : Gap gap [] → Covers file before gap [] none
  | stopped {before gap rest : Text} {f : Failure} : Gap gap rest → rest ≠ [] →
      (∀ r, f = .report r → r.location = some (Location.counted file (before ++ gap))) →
      Covers file before (gap ++ rest) [] (some f)
  | token {before gap lexeme rest : Text} {k : Token.Kind} {ts : List Token}
      {stop : Option Failure} : Gap gap (lexeme ++ rest) → k.Pattern lexeme →
      (k ≠ .newline → CodePoint.newline ∉ lexeme) →
      Covers file (before ++ gap ++ lexeme) rest ts stop →
      Covers file before (gap ++ (lexeme ++ rest))
        (⟨k, Location.counted file (before ++ gap)⟩ :: ts) stop

variable {file before t : Text} {ts : List Token} {stop : Option Failure}

/-- More of a gap in front of a source that is covered. -/
theorem Covers.longer {g : Text} (hg : ∀ gap rest, t = gap ++ rest → Gap gap rest → Gap (g ++ gap) rest)
    (h : Covers file (before ++ g) t ts stop) : Covers file before (g ++ t) ts stop := by
  cases h with
  | ended hgap => exact .ended (hg t [] (List.append_nil t).symm hgap)
  | @stopped _ gap rest f hgap hne hf =>
    rw [← List.append_assoc]
    refine .stopped (hg gap rest rfl hgap) hne ?_
    rwa [List.append_assoc] at hf
  | @token _ gap lexeme rest k ts _ hgap hpattern hplain hrest =>
    rw [List.append_assoc before] at hrest ⊢
    rw [← List.append_assoc g]
    exact .token (hg gap _ rfl hgap) hpattern hplain hrest

namespace Scan

/-- A gap does not begin with a newline. -/
theorem Gap.eq_nil {gap rest : Text} (h : Gap gap rest)
    (hn : ∀ c ∈ gap.head?, c = CodePoint.newline) : gap = [] := by
  cases h with
  | nil => rfl
  | @blank c t _ hc _ =>
    obtain rfl := hn c rfl
    exact absurd hc (by decide)
  | comment => exact absurd (hn '/' rfl) (by decide)

theorem tokensFrom_covers (file : Text) {before : Text} {skip : Nat} (t : Text) :
    Covers file (before ++ t.take skip) (t.drop skip)
      (tokensFrom skip (Location.counted file before) t).1
      (tokensFrom skip (Location.counted file before) t).2 := by
  induction t generalizing skip before with
  | nil =>
    rw [List.drop_nil]
    cases skip <;> exact .ended .nil
  | cons c t ih =>
    -- what is scanned behind the first code point, whatever has been read of it
    have hrest : ∀ n, Covers file (before ++ [c] ++ t.take n) (t.drop n)
        (tokensFrom n (Location.counted file (before ++ [c])) t).1
        (tokensFrom n (Location.counted file (before ++ [c])) t).2 := fun n => ih
    simp only [List.append_assoc, List.singleton_append, ← Location.after_counted] at hrest
    cases skip with
    | succ skip => exact hrest skip
    | zero =>
      rw [List.take_zero, List.append_nil, List.drop_zero, tokensFrom_zero]
      cases hp : piece c t with
      | mk p n =>
        cases p with
        | gap =>
          have hwhole : Covers file before (c :: t.take n ++ t.drop n)
              (tokensFrom n ((Location.counted file before).after c) t).1
              (tokensFrom n ((Location.counted file before).after c) t).2 := by
            refine (hrest n).longer fun gap rest htext hgap => ?_
            rcases gap_of_piece hp with ⟨hblank, rfl⟩ | ⟨body, hbody, hbody', hend⟩
            · exact .blank hblank hgap
            · have hnil : gap = [] := hgap.eq_nil fun d hd => by
                refine hend d ?_
                rw [htext, List.head?_append, Option.mem_def.mp hd]
                rfl
              subst hnil
              rw [htext] at hend
              rw [hbody, List.append_nil]
              exact .comment hbody' hend
          rwa [List.cons_append, List.take_append_drop] at hwhole
        | token k =>
          have hpattern := pattern_of_piece hp
          have hplain : k ≠ .newline → CodePoint.newline ∉ c :: t.take n :=
            fun hk hn => hk (eq_newline_of_pattern hpattern hn)
          have hwhole : Covers file before ([] ++ (c :: t.take n ++ t.drop n))
              (⟨k, Location.counted file (before ++ [])⟩ ::
                (tokensFrom n ((Location.counted file before).after c) t).1)
              (tokensFrom n ((Location.counted file before).after c) t).2 :=
            .token .nil hpattern hplain (by simpa using hrest n)
          simpa using hwhole
        | flaw cause =>
          have hstop : Covers file before ([] ++ c :: t) []
              (some (.report (cause.reportAt (Location.counted file before)))) :=
            .stopped .nil (by simp) (by rintro r ⟨⟩; simp [Cause.reportAt])
          simpa using hstop
        | fault f =>
          have hstop : Covers file before ([] ++ c :: t) [] (some (.fault f)) :=
            .stopped .nil (by simp) (by rintro r ⟨⟩)
          simpa using hstop

end Scan

namespace Lexemes

/-- The location is the one of a token. -/
def IsOf (ts : List Token) (l : Location) : Prop := ∃ t ∈ ts, t.location = l

/-- The tokens of a source cover it, each located where its lexeme begins, up to where scanning stops if
it does. All nodes of the program are located at such tokens, and so are the errors of reading it, but
for the one that scanning stops with and the one that the source ends too early. -/
theorem tokens_cover (file source : Text) :
    Covers file [] source (scan file source).1 (scan file source).2 ∧
      (∀ program above s, readProgram file source = .ok program → Occurs program above s →
        ∀ l ∈ s.locations, IsOf (scan file source).1 l) ∧
      ∀ r, readProgram file source = .error (.report r) →
        (∃ l, r.location = some l ∧ IsOf (scan file source).1 l) ∨
          (scan file source).2 = some (.report r) ∨ r = Cause.unexpectedEnd.report := by
  have hsublist : (tokenize file source).1.Sublist (scan file source).1 :=
    Layout.significant_sublist [] none _
  refine ⟨?_, ?_, ?_⟩
  · have hcovers : Covers file ([] ++ source.take 0) (source.drop 0)
        (tokensFrom 0 (Location.counted file []) source).1
        (tokensFrom 0 (Location.counted file []) source).2 := tokensFrom_covers file source
    exact hcovers
  · intro program above s hprogram hs l hl
    obtain ⟨t, ht, rfl⟩ := (read_wellFormed hprogram hs).2.2 l hl
    exact ⟨t, hsublist.mem ht, rfl⟩
  · intro r hr
    rcases objection_of_readProgram hr with hobjection | hstop
    · cases hobjection with
      | @unexpected t ht => exact .inl ⟨t.location, rfl, t, hsublist.mem ht, rfl⟩
      | @construct t _ ht hl _ => exact .inl ⟨t.location, hl, t, hsublist.mem ht, rfl⟩
      | unexpectedEnd => exact .inr (.inr rfl)
    · exact .inr (.inl hstop)

end Lexemes

end ModuleScript
