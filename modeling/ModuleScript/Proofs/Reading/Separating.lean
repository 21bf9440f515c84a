import ModuleScript.Proofs.Reading.Lines

/-!
# Which newlines separate

The rule by which newlines separate statements is stated about two tokens and what stands between
and before them. The significant tokens of a source are found in one pass that remembers the brackets
still awaited and the token before; what they come to is what the rule says.
-/

set_option autoImplicit false

namespace ModuleScript

open Layout

/-! ## The rule -/

inductive Bracket where
  | round
  | square
  | curly
  deriving DecidableEq, Repr

namespace Bracket

def opening : Bracket → Mark
  | round => .leftParen
  | square => .leftBracket
  | curly => .leftBrace

def closing : Bracket → Mark
  | round => .rightParen
  | square => .rightBracket
  | curly => .rightBrace

/-- The brackets that are open behind a token, innermost first, if these were before it: an opening
mark opens one, and a closing mark closes the innermost if it fits it. -/
def behind (opened : List Bracket) (t : Token) : List Bracket :=
  match [round, square, curly].find? fun b => t.kind = .mark b.opening with
  | some b => b :: opened
  | none =>
    match opened with
    | [] => []
    | b :: outer => if t.kind = .mark b.closing then outer else b :: outer

/-- The brackets that are open behind some tokens, innermost first. -/
def openBehind (ts : List Token) : List Bracket := ts.foldl behind []

end Bracket

namespace Token

/-- The tokens that leave a statement unfinished. -/
def unfinished : List Kind :=
  [.newline, .mark .semicolon, .mark .leftBrace, .mark .leftParen, .mark .leftBracket, .mark .comma,
    .mark .plus, .mark .minus, .mark .times, .mark .slash, .mark .percent, .mark .less,
    .mark .greater, .mark .equal, .mark .notEqual, .mark .andAnd, .mark .orOr, .mark .caret,
    .mark .dollar, .mark .assign, .mark .arrow, .mark .dots, .mark .bar,
    .keyword .letWord, .keyword .varWord, .keyword .fnWord, .keyword .ifWord, .keyword .thenWord,
    .keyword .elseWord, .keyword .matchWord, .keyword .andWord, .keyword .modWord,
    .keyword .pubWord, .keyword .impWord, .keyword .fromWord, .keyword .forWord, .keyword .inWord]

/-- The tokens that go on with the line before. -/
def continuing : List Kind :=
  [.mark .bar, .keyword .thenWord, .keyword .elseWord, .keyword .andWord, .mark .arrow,
    .mark .rightBrace, .mark .rightBracket, .mark .rightParen, .mark .plus, .mark .times,
    .mark .slash, .mark .percent, .mark .less, .mark .greater, .mark .equal, .mark .notEqual,
    .mark .andAnd, .mark .orOr, .mark .dots]

end Token

/-- Behind the tokens `before`, the newlines between `a` and `b` separate the two. -/
structure Separates (before : List Token) (a : Token) (gap : List Token) (b : Token) : Prop where
  newline : gap ≠ []
  outside : ∀ inner ∈ (Bracket.openBehind (before ++ [a])).head?, inner = .curly
  finished : a.kind ∉ Token.unfinished
  begins : b.kind ∉ Token.continuing

/-- The tokens that are no newlines. -/
def words (ts : List Token) : List Token := ts.filter (·.kind != .newline)

/-- What a sequence of tokens, newlines included, comes to by the rule: no other token is lost or
repeated, and between two of them the first newline stays if it separates. -/
structure Settled (raw out : List Token) : Prop where
  words : words out = words raw
  between : ∀ before a gap b after, raw = before ++ a :: (gap ++ b :: after) →
    a.kind ≠ .newline → b.kind ≠ .newline → (∀ t ∈ gap, t.kind = .newline) →
    ∃ before' kept after', out = before' ++ a :: (kept ++ b :: after') ∧
      ModuleScript.words before' = ModuleScript.words before ∧
      ModuleScript.words after' = ModuleScript.words after ∧
      (Separates before a gap b → ∃ n, gap.head? = some n ∧ kept = [n]) ∧
      (¬ Separates before a gap b → kept = [])
  first : ∀ t ∈ out.head?, t.kind ≠ .newline
  last : ∀ t ∈ out.getLast?, t.kind ≠ .newline

/-! ## What the pass remembers -/

variable {opened : List Bracket} {awaited : List Mark} {before gap rest after ts : List Token}
variable {t a b : Token} {last : Option Token.Kind}

theorem Token.continuesAfter_iff (k : Token.Kind) : continuesAfter k = true ↔ k ∈ unfinished := by
  cases k with
  | keyword k => cases k <;> decide
  | mark m => cases m <;> decide
  | newline => decide
  | _ => simp [continuesAfter, unfinished]

theorem Token.continuesBefore_iff (k : Token.Kind) :
    continuesBefore k = true ↔ k ∈ continuing := by
  cases k with
  | keyword k => cases k <;> decide
  | mark m => cases m <;> decide
  | newline => decide
  | _ => simp [continuesBefore, continuing]

/-- The pass awaits the closing marks of the brackets that are open. -/
theorem track_closing (opened : List Bracket) (t : Token) :
    track (opened.map Bracket.closing) t.kind = (Bracket.behind opened t).map Bracket.closing := by
  obtain ⟨k, l⟩ := t
  cases k with
  | mark m =>
    cases m <;> first
      | rfl
      | (cases opened with
        | nil => rfl
        | cons b outer => cases b <;> rfl)
  | _ => cases opened <;> rfl

theorem foldl_track (opened : List Bracket) (ts : List Token) :
    ts.foldl (fun awaited t => track awaited t.kind) (opened.map Bracket.closing) =
      (ts.foldl Bracket.behind opened).map Bracket.closing := by
  induction ts generalizing opened with
  | nil => rfl
  | cons t ts ih => rw [List.foldl_cons, List.foldl_cons, track_closing, ih]

theorem ignoresNewlines_iff (opened : List Bracket) :
    ignoresNewlines (opened.map Bracket.closing) = false ↔ ∀ b ∈ opened.head?, b = .curly := by
  cases opened with
  | nil => simp [ignoresNewlines]
  | cons b outer => cases b <;> simp [ignoresNewlines, Bracket.closing]

theorem track_newline (awaited : List Mark) : track awaited .newline = awaited := rfl

/-! ## The pass -/

theorem words_cons (h : t.kind ≠ .newline) (ts : List Token) : words (t :: ts) = t :: words ts :=
  List.filter_cons_of_pos (bne_iff_ne.mpr h)

theorem words_newline (h : t.kind = .newline) (ts : List Token) : words (t :: ts) = words ts :=
  List.filter_cons_of_neg fun hne => bne_iff_ne.mp hne h

theorem upcoming_word (h : t.kind ≠ .newline) (ts : List Token) : upcoming (t :: ts) = some t :=
  List.find?_cons_of_pos (bne_iff_ne.mpr h)

theorem upcoming_newline (h : t.kind = .newline) (ts : List Token) :
    upcoming (t :: ts) = upcoming ts :=
  List.find?_cons_of_neg fun hne => bne_iff_ne.mp hne h

theorem upcoming_gap (hgap : ∀ t ∈ gap, t.kind = .newline) (rest : List Token) :
    upcoming (gap ++ rest) = upcoming rest := by
  induction gap with
  | nil => rfl
  | cons n gap ih =>
    rw [List.cons_append, upcoming_newline (hgap n (.head _)), ih fun t ht => hgap t (.tail _ ht)]

theorem separates_congr (awaited : List Mark) (last : Option Token.Kind)
    (h : upcoming ts = upcoming rest) : separates awaited last ts = separates awaited last rest := by
  unfold separates
  rw [h]

/-- Behind a newline none separates. -/
theorem separates_newline (awaited : List Mark) (rest : List Token) :
    separates awaited (some .newline) rest = false := by
  simp [separates, continuesAfter]

theorem significant_word (h : t.kind ≠ .newline) (awaited : List Mark) (last : Option Token.Kind)
    (ts : List Token) : significant awaited last (t :: ts) =
      t :: significant (track awaited t.kind) (some t.kind) ts := by
  rw [significant, if_neg fun hn => h hn.1]

theorem significant_newline (h : t.kind = .newline) (awaited : List Mark)
    (last : Option Token.Kind) (ts : List Token) : significant awaited last (t :: ts) =
      if separates awaited last ts then t :: significant awaited (some .newline) ts
      else significant awaited last ts := by
  rw [significant, h]
  cases hsep : separates awaited last ts
  · rw [if_pos ⟨rfl, rfl⟩, if_neg (by decide)]
  · rw [if_neg (by simp), if_pos rfl, track_newline]

theorem significant_gap_dropped (hgap : ∀ t ∈ gap, t.kind = .newline)
    (h : separates awaited last rest = false) :
    significant awaited last (gap ++ rest) = significant awaited last rest := by
  induction gap with
  | nil => rfl
  | cons n gap ih =>
    have hgap' : ∀ t ∈ gap, t.kind = .newline := fun t ht => hgap t (.tail _ ht)
    have hsep := separates_congr awaited last (upcoming_gap hgap' rest)
    rw [List.cons_append, significant_newline (hgap n (.head _)), hsep, h, if_neg (by decide),
      ih hgap']

/-- Of a gap the first newline stays if it separates, and no other. -/
theorem significant_gap (hgap : ∀ t ∈ gap, t.kind = .newline) :
    significant awaited last (gap ++ rest) =
      if separates awaited last rest ∧ gap ≠ [] then
        gap.take 1 ++ significant awaited (some .newline) rest
      else significant awaited last rest := by
  cases gap with
  | nil => simp
  | cons n gap =>
    have hgap' : ∀ t ∈ gap, t.kind = .newline := fun t ht => hgap t (.tail _ ht)
    cases hsep : separates awaited last rest with
    | false => rw [significant_gap_dropped hgap hsep, if_neg (by simp)]
    | true =>
      have hsep' := separates_congr awaited last (upcoming_gap hgap' rest)
      rw [if_pos ⟨rfl, List.cons_ne_nil n gap⟩, List.cons_append,
        significant_newline (hgap n (.head _)), hsep', hsep, if_pos rfl,
        significant_gap_dropped hgap' (separates_newline awaited rest)]
      rfl

theorem words_significant (awaited : List Mark) (last : Option Token.Kind) (ts : List Token) :
    words (significant awaited last ts) = words ts := by
  induction ts generalizing awaited last with
  | nil => rfl
  | cons t ts ih =>
    by_cases h : t.kind = .newline
    · rw [significant_newline h, words_newline h]
      split
      · rw [words_newline h, ih]
      · exact ih awaited last
    · rw [significant_word h, words_cons h, words_cons h, ih]

/-- What comes before a token is passed without regard to what comes behind it. -/
theorem significant_append (h : t.kind ≠ .newline) (awaited : List Mark)
    (last : Option Token.Kind) (before rest : List Token) :
    ∃ before', words before' = words before ∧ significant awaited last (before ++ t :: rest) =
      before' ++ t :: significant
        ((before ++ [t]).foldl (fun awaited t => track awaited t.kind) awaited) (some t.kind) rest := by
  induction before generalizing awaited last with
  | nil => exact ⟨[], rfl, significant_word h awaited last rest⟩
  | cons u before ih =>
    rw [List.cons_append, List.cons_append, List.foldl_cons]
    by_cases hu : u.kind = .newline
    · rw [significant_newline hu, hu, track_newline, words_newline hu]
      split
      · obtain ⟨before', hwords, he⟩ := ih awaited (some .newline)
        exact ⟨u :: before', by rw [words_newline hu, hwords], by rw [he]; rfl⟩
      · exact ih awaited last
    · obtain ⟨before', hwords, he⟩ := ih (track awaited u.kind) (some u.kind)
      refine ⟨u :: before', ?_, ?_⟩
      · rw [words_cons hu, words_cons hu, hwords]
      · rw [significant_word hu, he]
        rfl

theorem first_significant (awaited : List Mark) (ts : List Token) :
    ∀ t ∈ (significant awaited none ts).head?, t.kind ≠ .newline := by
  induction ts with
  | nil => exact nofun
  | cons u ts ih =>
    by_cases hu : u.kind = .newline
    · have hsep : separates awaited none ts = false := by simp [separates]
      rw [significant_newline hu, hsep, if_neg (by decide)]
      exact ih
    · rw [significant_word hu]
      rintro t ⟨⟩
      exact hu

/-- A newline that stays has another token behind it. -/
theorem significant_ne_nil (h : separates awaited last ts = true) (awaited' : List Mark)
    (last' : Option Token.Kind) : significant awaited' last' ts ≠ [] := by
  intro hnil
  have hwords := words_significant awaited' last' ts
  rw [hnil] at hwords
  have hnone : upcoming ts = none :=
    List.find?_eq_none.mpr fun t ht hne => by
      have hmem : t ∈ words ts := List.mem_filter.mpr ⟨ht, hne⟩
      rw [← hwords] at hmem
      cases hmem
  simp [separates, hnone] at h

theorem last_significant (awaited : List Mark) (last : Option Token.Kind) (ts : List Token) :
    ∀ t ∈ (significant awaited last ts).getLast?, t.kind ≠ .newline := by
  induction ts generalizing awaited last with
  | nil => exact nofun
  | cons u ts ih =>
    by_cases hu : u.kind = .newline
    · rw [significant_newline hu]
      split
      · rename_i hsep
        obtain ⟨v, vs, hv⟩ := List.exists_cons_of_ne_nil
          (significant_ne_nil hsep awaited (some .newline))
        have hlast := ih awaited (some .newline)
        rw [hv] at hlast ⊢
        rw [List.getLast?_cons_cons]
        exact hlast
      · exact ih awaited last
    · rw [significant_word hu]
      cases hs : significant (track awaited u.kind) (some u.kind) ts with
      | nil =>
        rintro t ⟨⟩
        exact hu
      | cons v vs =>
        have hlast := ih (track awaited u.kind) (some u.kind)
        rw [hs] at hlast
        rw [List.getLast?_cons_cons]
        exact hlast

theorem separates_iff (opened : List Bracket) (a : Token) (hb : b.kind ≠ .newline)
    (after : List Token) :
    separates (opened.map Bracket.closing) (some a.kind) (b :: after) = true ↔
      (∀ inner ∈ opened.head?, inner = .curly) ∧ a.kind ∉ Token.unfinished ∧
        b.kind ∉ Token.continuing := by
  rw [← ignoresNewlines_iff, ← Token.continuesAfter_iff, ← Token.continuesBefore_iff]
  simp [separates, upcoming_word hb, and_assoc]

/-! ## The pass follows the rule -/

theorem separates_iff_separates (before : List Token) (a : Token) (gap : List Token)
    (hb : b.kind ≠ .newline) (after : List Token) :
    separates ((before ++ [a]).foldl (fun awaited t => track awaited t.kind) []) (some a.kind)
        (b :: after) = true ∧ gap ≠ [] ↔ Separates before a gap b := by
  have htrack := foldl_track [] (before ++ [a])
  rw [List.map_nil] at htrack
  rw [htrack, separates_iff _ a hb]
  constructor
  · intro ⟨⟨houtside, hfinished, hbegins⟩, hgap⟩
    exact ⟨hgap, houtside, hfinished, hbegins⟩
  · intro ⟨hgap, houtside, hfinished, hbegins⟩
    exact ⟨⟨houtside, hfinished, hbegins⟩, hgap⟩

theorem settled_significant (raw : List Token) : Settled raw (significant [] none raw) where
  words := words_significant [] none raw
  first := first_significant [] raw
  last := last_significant [] none raw
  between := by
    rintro before a gap b after rfl ha hb hgap
    obtain ⟨before', hwords, he⟩ := significant_append ha [] none before (gap ++ b :: after)
    have hsep := separates_iff_separates before a gap hb after
    rw [significant_gap hgap] at he
    split at he
    · rename_i hyes
      obtain ⟨n, gap', rfl⟩ := List.exists_cons_of_ne_nil hyes.2
      rw [significant_word hb] at he
      refine ⟨before', [n], _, he, hwords, words_significant _ _ after, ?_, ?_⟩
      · exact fun _ => ⟨n, rfl, rfl⟩
      · exact fun hno => absurd (hsep.mp hyes) hno
    · rename_i hno
      rw [significant_word hb] at he
      refine ⟨before', [], _, he, hwords, words_significant _ _ after, ?_, fun _ => rfl⟩
      exact fun hyes => absurd (hsep.mpr hyes) hno

/-- Of every source that is scanned to its end, the significant tokens are what the scanned ones
come to by the rule. Between two of them a newline was scanned if the source has one there, and the
one that stays is the first. -/
theorem tokenize_settled {file source : Text} (h : (scan file source).2 = none) :
    ∃ out, tokenize file source = (out, none) ∧ Settled (scan file source).1 out ∧
      ∀ before a gap b after, (scan file source).1 = before ++ a :: (gap ++ b :: after) →
        a.kind ≠ .newline → (∀ t ∈ gap, t.kind = .newline) →
        Scan.Apart (Location.start file) source a gap b := by
  refine ⟨significant [] none (scan file source).1, ?_, settled_significant _, ?_⟩
  · unfold tokenize
    rw [← h]
  · intro before a gap b after hraw ha hgap
    have hstands : Scan.Stands (Location.start file) source (scan file source).1 :=
      Scan.stands_tokensFrom h
    rw [hraw] at hstands
    exact hstands.apart ha hgap

/-- Newlines between parentheses and in front of `then` do not separate. Of those behind `x`, with a
comment between them, the first stays. -/
theorem tokenize_settled_sample :
    (scan "a" "f(\n1\n)\nthen x\n// c\n\ny\n").2 = none ∧
    ∃ out, tokenize "a" "f(\n1\n)\nthen x\n// c\n\ny\n" = (out, none) ∧
      Settled (scan "a" "f(\n1\n)\nthen x\n// c\n\ny\n").1 out ∧
      out.map Token.kind = [.identifier "f", .mark .leftParen, .number 1, .mark .rightParen,
        .keyword .thenWord, .identifier "x", .newline, .identifier "y"] := by
  have h : (scan "a" "f(\n1\n)\nthen x\n// c\n\ny\n").2 = none := by decide +kernel
  have hkinds : (tokenize "a" "f(\n1\n)\nthen x\n// c\n\ny\n").1.map Token.kind =
      [.identifier "f", .mark .leftParen, .number 1, .mark .rightParen, .keyword .thenWord,
        .identifier "x", .newline, .identifier "y"] := by decide +kernel
  obtain ⟨out, he, hsettled, -⟩ := tokenize_settled h
  rw [he] at hkinds
  exact ⟨h, out, he, hsettled, hkinds⟩

end ModuleScript
