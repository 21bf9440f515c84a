import ModuleScript.Proofs.Grammar.Complete
import ModuleScript.Proofs.Grammar.Sound

/-!
# What is read is what is derived

A match ends only where something around it does, so a bar always goes on with the innermost match
that is open. That is the one choice between derivations by which a reader can go wrong: a match
whose subject leaves another match open is left without arms.
-/

set_option autoImplicit false

namespace ModuleScript

open Grammar

/-- The program of a source whose tokens are all there depends on the tokens only. -/
theorem readProgram_of_tokenize {file source : Text} {ts : List Token}
    (h : tokenize file source = (ts, none)) :
    readProgram file source = (readTokens ts).mapError Failure.report := by
  unfold readProgram readTokens
  rw [h]
  change _ = ((Reader.start.feedAll ts).bind Reader.finish).mapError Failure.report
  dsimp only
  cases Reader.start.feedAll ts with
  | error r => rfl
  | ok r => rfl

/-- A program that is read is that of the tokens of its source, all of which are there. -/
theorem tokens_of_readProgram {file source : Text} {program : Program}
    (h : readProgram file source = .ok program) :
    ∃ ts, tokenize file source = (ts, none) ∧ readTokens ts = .ok program := by
  unfold readProgram at h
  generalize htokens : tokenize file source = q at h
  obtain ⟨ts, stop⟩ := q
  dsimp only at h
  cases hfeed : Reader.start.feedAll ts with
  | error r =>
    rw [hfeed] at h
    cases h
  | ok r =>
    rw [hfeed] at h
    cases stop with
    | some f => cases h
    | none =>
      refine ⟨ts, rfl, ?_⟩
      change (Reader.start.feedAll ts).bind Reader.finish = _
      rw [hfeed]
      dsimp only at h
      cases hfinish : r.finish with
      | error e =>
        rw [hfinish] at h
        cases h
      | ok p =>
        rw [hfinish] at h
        cases h
        exact hfinish

namespace Grammar

theorem Accepts.ok_or {α : Type} {P : α → Prop} {x : Except Report α} (h : Accepts P x) :
    (∃ a, x = .ok a) ∨ ∃ f, Semantic f ∧ x = .error f := by
  cases h with
  | ok _ => exact .inl ⟨_, rfl⟩
  | flaw hf => exact .inr ⟨_, hf, rfl⟩

/-- A program is read only from the leaves of a tree that stands for it, all of them, and no match
in the tree has a match trailing in its subject. From the leaves of each such tree a program is read,
unless a construct in them cannot stand. -/
theorem reads_exactly (ts : List Token) :
    (∀ p, readTokens ts = .ok p →
      ∃ t : Tree .program, t.tokens = ts ∧ t.value? = some p ∧ t.clear true = true) ∧
    ∀ t : Tree .program, t.tokens = ts → t.clear true = true →
      (∃ p, readTokens ts = .ok p) ∨ ∃ f, Semantic f ∧ readTokens ts = .error f := by
  constructor
  · intro p hp
    exact derives_of_readTokens hp
  · rintro t rfl hclear
    exact (accepts_readTokens t hclear).ok_or

/-! ## A match at the left of an operator -/

/-- The column of the first line of the source `main`. -/
def column (k : Nat) : Location := ⟨"main", 1, k⟩

def nameAt (k : Nat) (n : Ident) : Tree .expression := .operand (.uncalled (.name (column k) n))

/-- The expression `match y | c then d`. -/
def innerMatch (k : Nat) : Tree .expression :=
  .select (column k) (nameAt (k + 6) "y") (.oneArm (.arm (column (k + 8)) (column (k + 10))
    (column (k + 12)) "c" (nameAt (k + 17) "d")))

/-- The program `match … + e | f then g` for the tree of what is left of the operator. -/
def matchOfSum (left : Tree .expression) (k : Nat) : Tree .program :=
  .program (.oneItem (.filled (.expression (.select (column 1)
    (.binary (column k) (rfl : Mark.plus.binary? = some .add) left (nameAt (k + 2) "e"))
    (.oneArm (.arm (column (k + 4)) (column (k + 6)) (column (k + 8)) "f"
      (nameAt (k + 13) "g")))))))

def groupedSum : Tree .program :=
  matchOfSum (.operand (.uncalled (.group (column 7) (column 26) (innerMatch 8)))) 28

def openSum : Tree .program := matchOfSum (innerMatch 7) 26

theorem reads_exactly_groupedSum :
    (∃ p, groupedSum.value? = some p ∧ readTokens groupedSum.tokens = .ok p ∧
      ∃ t : Tree .program, t.tokens = groupedSum.tokens ∧ t.value? = some p ∧
        t.clear true = true) ∧
    groupedSum.clear true = true ∧ ((∃ p, readTokens groupedSum.tokens = .ok p) ∨
      ∃ f, Semantic f ∧ readTokens groupedSum.tokens = .error f) := by
  have hclear : groupedSum.clear true = true := rfl
  have hread : readTokens groupedSum.tokens = .ok _ := rfl
  obtain ⟨hsound, hcomplete⟩ := reads_exactly groupedSum.tokens
  exact ⟨⟨_, rfl, hread, hsound _ hread⟩, hclear, hcomplete groupedSum rfl hclear⟩

theorem unexpectedEnd_not_semantic : ¬ Semantic Cause.unexpectedEnd.report := by
  intro h
  generalize hf : Cause.unexpectedEnd.report = f at h
  have hnotes := congrArg Report.notes hf
  cases h <;> cases hnotes

/-- The subject of this match ends with a name, and all the same its arm is taken by the match at the
left of the operator in it. -/
theorem openSum_not_read :
    openSum.clear false = true ∧
      tokenize "main" "match match y | c then d + e | f then g" = (openSum.tokens, none) ∧
      readTokens openSum.tokens = .error Cause.unexpectedEnd.report ∧
      ¬ Semantic Cause.unexpectedEnd.report ∧
      readProgram "main" "match match y | c then d + e | f then g" =
        .error (.report Cause.unexpectedEnd.report) := by
  have hscan : tokenize "main" "match match y | c then d + e | f then g" =
      (openSum.tokens, none) := by decide +kernel
  have hread : readTokens openSum.tokens = .error Cause.unexpectedEnd.report := rfl
  refine ⟨rfl, hscan, hread, unexpectedEnd_not_semantic, ?_⟩
  rw [readProgram_of_tokenize hscan, hread]
  rfl

end Grammar

end ModuleScript
