import ModuleScript.Proofs.Grammar.Exact
import ModuleScript.Proofs.Grammar.Nested
import ModuleScript.Proofs.Printing.Written
import ModuleScript.Proofs.Reading.Bodies
import ModuleScript.Proofs.Reading.Onward

/-!
# Sources one behind the other

Of two sources that are read, the first with a newline and a semicolon behind it and then the second
are read as the statements of both, and so they are between the braces of a module. Behind the first
source no bracket is open, and all that its last statement leaves open to the right ends at the
separator as it would at the end of the source.
-/

set_option autoImplicit false

namespace ModuleScript

namespace Layout

open ModuleScript.Bracket

variable {opened : List Bracket} {awaited : List Mark} {last : Option Token.Kind}
  {ts gap rest : List Token} {t : Token}

/-- A newline after a token that leaves a statement unfinished counts as little as one at the
beginning. -/
theorem significant_unfinished {k : Token.Kind} (hk : continuesAfter k = true)
    (awaited : List Mark) (ts : List Token) :
    significant awaited (some k) ts = significant awaited none ts := by
  induction ts with
  | nil => rfl
  | cons t ts ih =>
    by_cases ht : t.kind = .newline
    · have hsome : separates awaited (some k) ts = false := by simp [separates, hk]
      have hnone : separates awaited none ts = false := by simp [separates]
      rw [significant_newline ht, significant_newline ht, hsome, hnone, if_neg (by decide),
        if_neg (by decide), ih]
    · rw [significant_word ht, significant_word ht]

theorem words_gap (hgap : ∀ u ∈ gap, u.kind = .newline) : words gap = [] :=
  List.filter_eq_nil_iff.mpr fun u hu hne => bne_iff_ne.mp hne (hgap u hu)

theorem upcoming_moved (f : Location → Location) (ts : List Token) :
    upcoming (ts.map (Token.moved f)) = (upcoming ts).map (Token.moved f) :=
  List.find?_map ..

theorem significant_moved (f : Location → Location) (awaited : List Mark)
    (last : Option Token.Kind) (ts : List Token) :
    significant awaited last (ts.map (Token.moved f)) =
      (significant awaited last ts).map (Token.moved f) := by
  induction ts generalizing awaited last with
  | nil => rfl
  | cons t ts ih =>
    have hseparates : separates awaited last (ts.map (Token.moved f)) =
        separates awaited last ts := by
      unfold separates
      rw [upcoming_moved]
      cases upcoming ts <;> rfl
    by_cases ht : t.kind = .newline
    · have ht' : (t.moved f).kind = .newline := ht
      rw [List.map_cons, significant_newline ht', significant_newline ht, hseparates]
      split
      · rw [ih, List.map_cons]
      · exact ih awaited last
    · have ht' : (t.moved f).kind ≠ .newline := ht
      rw [List.map_cons, significant_word ht', significant_word ht, ih]
      rfl

/-- Newlines in front of a token that is none. -/
theorem significant_gap_word (hgap : ∀ u ∈ gap, u.kind = .newline) (ht : t.kind ≠ .newline) :
    ∃ between : List Token, (∀ u ∈ between, u.kind = .newline) ∧
      significant awaited last (gap ++ t :: rest) =
        between ++ t :: significant (track awaited t.kind) (some t.kind) rest := by
  rw [significant_gap hgap]
  split
  · refine ⟨gap.take 1, fun u hu => hgap u (List.mem_of_mem_take hu), ?_⟩
    rw [significant_word ht]
  · refine ⟨[], nofun, ?_⟩
    rw [significant_word ht]
    rfl

/-- Behind some tokens come newlines and a token that is none: what was significant before stays
so, and at most newlines come in between. -/
theorem significant_join (hgap : ∀ u ∈ gap, u.kind = .newline) (ht : t.kind ≠ .newline)
    (opened : List Bracket) (last : Option Token.Kind) (ts rest : List Token) :
    ∃ between : List Token, (∀ u ∈ between, u.kind = .newline) ∧
      significant (opened.map closing) last (ts ++ (gap ++ t :: rest)) =
        significant (opened.map closing) last ts ++ (between ++ t ::
          significant ((behind (behindAll opened ts) t).map closing) (some t.kind) rest) := by
  induction ts generalizing opened last with
  | nil =>
    rw [List.nil_append]
    rw [← track_closing]
    exact significant_gap_word hgap ht
  | cons u ts ih =>
    by_cases hu : u.kind = .newline
    · have hbehind : behindAll opened (u :: ts) = behindAll opened ts := by
        change behindAll (behind opened u) ts = _
        rw [behind_newline hu]
      cases hup : upcoming ts with
      | none =>
        -- nothing but newlines is left, so none of them was significant
        have hts : ∀ v ∈ u :: ts, v.kind = .newline := by
          refine List.forall_mem_cons.mpr ⟨hu, fun v hv => ?_⟩
          simpa using List.find?_eq_none.mp hup v hv
        have hnone : significant (opened.map closing) last (u :: ts) = [] := by
          have hdropped : significant (opened.map closing) last (u :: ts ++ []) = [] :=
            significant_gap_dropped hts (by simp [separates, upcoming])
          rwa [List.append_nil] at hdropped
        have hall : ∀ v ∈ u :: ts ++ gap, v.kind = .newline := List.forall_mem_append.mpr ⟨hts, hgap⟩
        have hbalanced : behindAll opened (u :: ts) = opened := by
          rw [← behindAll_words, words_gap hts]
          rfl
        rw [hnone, hbalanced, ← List.append_assoc, ← track_closing]
        exact significant_gap_word hall ht
      | some v =>
        have hcongr : upcoming (ts ++ (gap ++ t :: rest)) = upcoming ts := by
          unfold upcoming at hup ⊢
          rw [List.find?_append, hup]
          rfl
        rw [List.cons_append, significant_newline hu, significant_newline hu,
          separates_congr _ _ hcongr, hbehind]
        split
        · obtain ⟨between, hbetween, hrest⟩ := ih opened (some .newline)
          exact ⟨between, hbetween, by rw [hrest, List.cons_append]⟩
        · exact ih opened last
    · obtain ⟨between, hbetween, hrest⟩ := ih (behind opened u) (some u.kind)
      refine ⟨between, hbetween, ?_⟩
      rw [List.cons_append, significant_word hu, significant_word hu, track_closing, hrest]
      rfl

end Layout

open Layout Reader

variable {file s : Text} {ts : List Token} {p : Program}

/-- The tokens of a source that is read, newlines included, close all brackets that they open. -/
theorem nested_scan (h : readTokens (significant [] none ts) = .ok p) : Bracket.Nested ts := by
  obtain ⟨t, ht, -, -⟩ := Grammar.derives_of_readTokens h
  have hnested := (Grammar.nested_tokens t).words
  rw [ht, words_significant] at hnested
  exact hnested.of_words

theorem scan_of_tokenize (h : tokenize file s = (ts, none)) :
    ∃ raw, scan file s = (raw, none) ∧ significant [] none raw = ts := by
  unfold tokenize at h
  generalize scan file s = q at h ⊢
  obtain ⟨raw, stop⟩ := q
  cases h
  exact ⟨raw, rfl, rfl⟩

/-- Where the second of two sources begins: on the line behind the first, after a semicolon. -/
def Location.behind (s : Text) : Location → Location :=
  Location.shifted (s.count CodePoint.newline + 1) 1

theorem tokenize_joined {s₁ s₂ : Text} {ts₁ ts₂ : List Token} {p₁ : Program}
    (h₁ : tokenize file s₁ = (ts₁, none)) (hread : readTokens ts₁ = .ok p₁)
    (h₂ : tokenize file s₂ = (ts₂, none)) :
    ∃ between : List Token, between ≠ [] ∧
      (∀ t ∈ between, t.kind = .newline ∨ t.kind = .mark .semicolon) ∧
      tokenize file (s₁ ++ "\n;" ++ s₂) =
        (ts₁ ++ (between ++ ts₂.map (Token.moved (Location.behind s₁))), none) := by
  obtain ⟨raw₁, hscan₁, rfl⟩ := scan_of_tokenize h₁
  obtain ⟨raw₂, hscan₂, rfl⟩ := scan_of_tokenize h₂
  have hmoved := Scan.tokensFrom_moved (Location.shifted_after (s₁.count CodePoint.newline + 1) 1)
    (l := Location.start file) Nat.one_pos hscan₂
  have hplace := Location.past_newline (Location.start file) s₁
  have hafter : ((Location.start file).past (s₁ ++ [CodePoint.newline])).after ';' =
      Location.behind s₁ (Location.start file) := by
    rw [hplace]
    rfl
  have hhead : ∀ c ∈ (CodePoint.ofChar ';' :: s₂).head?, c ≠ CodePoint.newline := by
    rintro c ⟨⟩
    decide
  obtain ⟨gap, hgap, hscan⟩ := Scan.tokensFrom_newline hscan₁ (Nat.zero_le _) hhead
  have hsemicolon : Scan.piece ';' s₂ = (.token (.mark .semicolon), 0) := rfl
  rw [Scan.tokensFrom_zero, hsemicolon] at hscan
  dsimp only at hscan
  rw [hafter] at hscan
  change Scan.tokensFrom 0 (Location.behind s₁ _) s₂ = _ at hmoved
  rw [hmoved] at hscan
  generalize (Location.start file).past (s₁ ++ [CodePoint.newline]) = l at hscan
  have hbalanced : Bracket.behindAll [] raw₁ = [] := (nested_scan hread).balanced []
  obtain ⟨between, hbetween, hsignificant⟩ := significant_join hgap (t := ⟨.mark .semicolon, l⟩)
    nofun [] none raw₁ (raw₂.map (Token.moved (Location.behind s₁)))
  rw [hbalanced] at hsignificant
  refine ⟨between ++ [⟨.mark .semicolon, l⟩], by simp, ?_, ?_⟩
  · intro t ht
    rcases List.mem_append.mp ht with ht | ht
    · exact .inl (hbetween t ht)
    · rw [List.mem_singleton.mp ht]
      exact .inr rfl
  · have hsource : s₁ ++ ("\n;" : Text) ++ s₂ = s₁ ++ CodePoint.newline :: ';' :: s₂ :=
      List.append_assoc ..
    have hlast : significant [] (some (.mark .semicolon))
        (raw₂.map (Token.moved (Location.behind s₁))) =
          (significant [] none raw₂).map (Token.moved (Location.behind s₁)) := by
      rw [significant_unfinished rfl, significant_moved]
    rw [hsource, tokenize, scan, hscan]
    dsimp only
    refine Prod.ext (hsignificant.trans ?_) rfl
    change _ ++ (between ++ _ :: significant [] (some (.mark .semicolon)) _) = _
    rw [hlast, List.append_assoc]
    rfl

/-! ## In a module -/

theorem newline_notMem_identifier {n : Ident} (hn : Scan.isIdentifier n = true) :
    CodePoint.newline ∉ n := by
  unfold Scan.isIdentifier at hn
  rw [Bool.and_eq_true] at hn
  obtain ⟨c, t, rfl, hc, ht⟩ := Scan.exists_of_isName hn.1
  have hall : ∀ d ∈ c :: t, Scan.continuesName d = true :=
    List.forall_mem_cons.mpr ⟨Scan.continuesName_of_startsName hc, ht⟩
  intro hm
  exact absurd (hall _ hm) (by decide)

/-- The head of a module is three tokens, and its body begins on the same line. -/
theorem scan_moduleHead {n : Ident} (hn : Scan.isIdentifier n = true) (file rest : Text) :
    ∃ l₁ l₂, scan file ("mod " ++ (n ++ (" \x7b" ++ rest))) =
      (⟨.keyword .modWord, Location.start file⟩ :: ⟨.identifier n, l₁⟩ ::
          ⟨.mark .leftBrace, l₂⟩ ::
            (Scan.tokensFrom 0 ((Location.start file).shifted 0 (n.length + 6)) rest).1,
        (Scan.tokensFrom 0 ((Location.start file).shifted 0 (n.length + 6)) rest).2) := by
  have hblank : ∀ more : Text, Scan.Delimited ((" " : Text) ++ more) := by
    rintro more c ⟨⟩
    decide
  obtain ⟨c, t, rfl⟩ : ∃ c t, n = c :: t := by
    cases n with
    | nil => cases hn
    | cons c t => exact ⟨c, t, rfl⟩
  have hword : Scan.piece 'm' (("od" : Text) ++ ((" " : Text) ++ (c :: t ++ (" \x7b" ++ rest)))) =
      (.token (.keyword .modWord), 2) := by
    have hall : ("od" : Text).all Scan.continuesName = true := rfl
    rw [Scan.piece_startsName (by decide),
      Scan.nameTail_append (List.all_eq_true.mp hall) (hblank _)]
    rfl
  have hname := Scan.piece_identifier hn (hblank (("\x7b" : Text) ++ rest))
  have hplace : (Location.start file).past (("mod " : Text) ++ (c :: t ++ (" \x7b" : Text))) =
      (Location.start file).shifted 0 ((c :: t).length + 6) := by
    rw [Location.past_plain]
    · simp [Location.start, Location.shifted, Text.ofString]
    · intro hm
      rcases List.mem_append.mp hm with hm | hm
      · exact absurd hm (by decide)
      · rcases List.mem_append.mp hm with hm | hm
        · exact newline_notMem_identifier hn hm
        · exact absurd hm (by decide)
  rw [Location.past_append, Location.past_append] at hplace
  refine ⟨((Location.start file).past ("mod" : Text)).after ' ',
    (((Location.start file).past ("mod " : Text)).past (c :: t)).after ' ', ?_⟩
  rw [← hplace]
  change Scan.tokensFrom 0 _
    ('m' :: (("od" : Text) ++ ((" " : Text) ++ (c :: t ++ (" \x7b" ++ rest))))) = _
  rw [Scan.tokensFrom_token hword]
  change (_ :: (Scan.tokensFrom 0 _ (c :: (t ++ ((" " : Text) ++ ("\x7b" ++ rest))))).1,
    (Scan.tokensFrom 0 _ (c :: (t ++ ((" " : Text) ++ ("\x7b" ++ rest))))).2) = _
  rw [Scan.tokensFrom_token hname]
  rfl

theorem tokenize_module {n : Ident} (hn : Scan.isIdentifier n = true)
    (h : tokenize file s = (ts, none)) (hread : readTokens ts = .ok p) :
    ∃ l₁ l₂ l₃, ∃ between : List Token, (∀ t ∈ between, t.kind = .newline) ∧
      tokenize file ("mod " ++ (n ++ (" \x7b" ++ (s ++ "\n\x7d")))) =
        (⟨.keyword .modWord, Location.start file⟩ :: ⟨.identifier n, l₁⟩ ::
          ⟨.mark .leftBrace, l₂⟩ :: (ts.map (Token.moved (Location.shifted 0 (n.length + 6))) ++
            (between ++ [⟨.mark .rightBrace, l₃⟩])), none) := by
  obtain ⟨raw, hscan, rfl⟩ := scan_of_tokenize h
  have hmoved := Scan.tokensFrom_moved (Location.shifted_after 0 (n.length + 6))
    (l := Location.start file) Nat.one_pos hscan
  have hclosing : ∀ c ∈ ("\x7d" : Text).head?, c ≠ CodePoint.newline := by
    rintro c ⟨⟩
    decide
  obtain ⟨gap, hgap, hbody⟩ := Scan.tokensFrom_newline hmoved (Nat.zero_le _) hclosing
  obtain ⟨l₁, l₂, hhead⟩ := scan_moduleHead hn file (s ++ "\n\x7d")
  have hraw : significant [] none (raw.map (Token.moved (Location.shifted 0 (n.length + 6)))) =
      (significant [] none raw).map (Token.moved (Location.shifted 0 (n.length + 6))) :=
    significant_moved _ _ _ _
  have hnested := nested_scan (hraw.symm ▸ readTokens_moved _ hread)
  generalize raw.map (Token.moved (Location.shifted 0 (n.length + 6))) = raw' at *
  generalize ((Location.start file).shifted 0 (n.length + 6)).past (s ++ [CodePoint.newline]) = l₃
    at hbody
  have hbrace : Scan.tokensFrom 0 l₃ ("\x7d" : Text) = ([⟨.mark .rightBrace, l₃⟩], none) := rfl
  rw [hbrace] at hbody
  obtain ⟨between, hbetween, hsignificant⟩ := significant_join hgap (t := ⟨.mark .rightBrace, l₃⟩)
    nofun [.curly] (some (.mark .leftBrace)) raw' []
  have hinside : significant ([Bracket.curly].map Bracket.closing) (some (.mark .leftBrace)) raw' =
      significant [] none raw' :=
    (Bracket.significant_over (hnested.grounded []) (by rintro b ⟨⟩; rfl)).trans
      (significant_unfinished rfl [] raw')
  rw [hinside, hraw] at hsignificant
  refine ⟨l₁, l₂, l₃, between, hbetween, ?_⟩
  have hscanBody : Scan.tokensFrom 0 ((Location.start file).shifted 0 (n.length + 6))
      (s ++ ("\n\x7d" : Text)) = _ := hbody
  rw [tokenize, hhead, hscanBody]
  dsimp only
  rw [significant_word (t := ⟨.keyword .modWord, _⟩) nofun,
    significant_word (t := ⟨.identifier n, _⟩) nofun,
    significant_word (t := ⟨.mark .leftBrace, _⟩) nofun]
  refine Prod.ext ?_ rfl
  exact congrArg (fun us => _ :: _ :: _ :: us) hsignificant

/-- Two sources that are read, one behind the other with a newline and a semicolon between them, are
read as the statements of the first and those of the second, which stand as many lines further down
as there are newlines before them. Between the braces of a module, with a newline behind, they are its
body; what is on the first line then stands further right. -/
theorem read_joined {s₁ s₂ : Text} {p₁ p₂ : Program} (h₁ : readProgram file s₁ = .ok p₁)
    (h₂ : readProgram file s₂ = .ok p₂) :
    readProgram file (s₁ ++ "\n;" ++ s₂) = .ok (p₁ ++ p₂.moved (Location.behind s₁)) ∧
      ∀ n, Scan.isIdentifier n = true →
        readProgram file ("mod " ++ (n ++ (" \x7b" ++ (s₁ ++ "\n;" ++ s₂ ++ "\n\x7d")))) =
          .ok [.module (Location.start file) false n
            (Program.moved (Location.shifted 0 (n.length + 6))
              (p₁ ++ p₂.moved (Location.behind s₁)))] := by
  obtain ⟨ts₁, htokens₁, hread₁⟩ := tokens_of_readProgram h₁
  obtain ⟨ts₂, htokens₂, hread₂⟩ := tokens_of_readProgram h₂
  obtain ⟨between, hne, hbetween, htokens⟩ := tokenize_joined htokens₁ hread₁ htokens₂
  have hread := readTokens_append hread₁ (readTokens_moved (Location.behind s₁) hread₂) hne hbetween
  constructor
  · rw [readProgram_of_tokenize htokens, hread]
    rfl
  · intro n hn
    obtain ⟨l₁, l₂, l₃, behind, hbehind, hmodule⟩ := tokenize_module hn htokens hread
    rw [readProgram_of_tokenize hmodule,
      readTokens_module (readTokens_moved _ hread) _ l₁ l₂ l₃ n fun t ht => .inl (hbehind t ht)]
    rfl

/-! ## A binding and its use -/

theorem binding_read : readProgram "main" "let x = 1 // one" = .ok [.expr (.binding (Grammar.column 1)
    "x" (.constant (Grammar.column 9) (.number (.int 1))))] := by
  have hscan : tokenize "main" "let x = 1 // one" =
      ([⟨.keyword .letWord, Grammar.column 1⟩, ⟨.identifier "x", Grammar.column 5⟩,
        ⟨.mark .assign, Grammar.column 7⟩, ⟨.number 1, Grammar.column 9⟩], none) := by
    decide +kernel
  rw [readProgram_of_tokenize hscan]
  rfl

theorem use_read : readProgram "main" " x" = .ok [.expr (.name (Grammar.column 2) "x")] := by
  have hscan : tokenize "main" " x" = ([⟨.identifier "x", Grammar.column 2⟩], none) := by
    decide +kernel
  rw [readProgram_of_tokenize hscan]
  rfl

/-- The semicolon is not part of the comment, and the module begins in the same line as its body. -/
theorem read_joined_use :
    readProgram "main" "let x = 1 // one\n; x" = .ok [
      .expr (.binding (Grammar.column 1) "x" (.constant (Grammar.column 9) (.number (.int 1)))),
      .expr (.name ⟨"main", 2, 3⟩ "x")] ∧
    readProgram "main" "mod M \x7blet x = 1 // one\n; x\n\x7d" = .ok [
      .module (Grammar.column 1) false "M" [
        .expr (.binding (Grammar.column 8) "x"
          (.constant (Grammar.column 16) (.number (.int 1)))),
        .expr (.name ⟨"main", 2, 3⟩ "x")]] := by
  obtain ⟨hjoined, hmodule⟩ := read_joined binding_read use_read
  exact ⟨hjoined, hmodule "M" rfl⟩

end ModuleScript
