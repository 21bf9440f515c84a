import ModuleScript.Proofs.Printing.Printer
import ModuleScript.Proofs.Reading.Onward

/-!
# Patterns of lexemes

A token of each kind is written in its own way: a numeral with digits, a name with letters, a literal
between quotes. What scanning takes for a token is written in the way of the token's kind and has its
meaning, and what it passes over is a blank or a comment up to the end of its line.
-/

set_option autoImplicit false

namespace ModuleScript

open Scan

/-! ## Patterns -/

/-- What may stand between two quotes: a backslash takes the code point behind it along. -/
inductive Scan.Enclosed (quote : CodePoint) : Text → Prop where
  | nil : Enclosed quote []
  | plain {c : CodePoint} {t : Text} : c ≠ quote → c ≠ '\\' → c ≠ CodePoint.newline →
      Enclosed quote t → Enclosed quote (c :: t)
  | escaped {c : CodePoint} {t : Text} : c ≠ CodePoint.newline → Enclosed quote t →
      Enclosed quote ('\\' :: c :: t)

/-- At least one digit, and nothing else. -/
structure Scan.Digits (t : Text) : Prop where
  nonempty : t ≠ []
  digit : ∀ c ∈ t, c.isDigit = true

def Scan.digitValues (t : Text) : List Nat := t.filterMap CodePoint.digit?

namespace Token.Kind

/-- The text is a lexeme of this kind of token, and it means this token. -/
inductive Pattern : Token.Kind → Text → Prop where
  | float {whole fraction : Text} : Digits whole → Digits fraction →
      Pattern (.float (floatOf (digitValues whole) (digitValues fraction)))
        (whole ++ ('.' : CodePoint) :: fraction)
  | number {t : Text} {n : Nat} : Digits t → Decimal.read (digitValues t) = .ok n →
      Pattern (.number n) t
  | string {body t : Text} : Enclosed '"' body → Escape.unescape body = .ok t →
      Pattern (.string t) (('"' : CodePoint) :: body ++ [('"' : CodePoint)])
  | char {body : Text} {c : CodePoint} : Enclosed '\'' body → Escape.unescape body = .ok [c] →
      Pattern (.char c) (('\'' : CodePoint) :: body ++ [('\'' : CodePoint)])
  | identifier {n : Ident} : isIdentifier n = true → Pattern (.identifier n) n
  | dotted {names : List Ident} : 2 ≤ names.length → (∀ n ∈ names, isName n = true) →
      Pattern (.dotted names) (Text.join "." names)
  | keyword (k : Keyword) : Pattern (.keyword k) k.text
  | mark (m : Mark) : Pattern (.mark m) m.text
  | newline (n : Nat) : Pattern .newline (List.replicate (n + 1) CodePoint.newline)

end Token.Kind

/-- What stands between lexemes, in front of the given rest: blanks, and then a comment if there is one,
which goes on to the end of its line. -/
inductive Scan.Gap : Text → Text → Prop where
  | nil {rest : Text} : Gap [] rest
  | blank {c : CodePoint} {t rest : Text} : isBlank c = true → Gap t rest → Gap (c :: t) rest
  | comment {body rest : Text} : CodePoint.newline ∉ body →
      (∀ c ∈ rest.head?, c = CodePoint.newline) → Gap (("//" : Text) ++ body) rest

/-! ## Newlines -/

namespace Scan

variable {c quote : CodePoint} {t rest body : Text} {k : Token.Kind} {n : Nat}

theorem Enclosed.newline_notMem (h : Enclosed quote t) : CodePoint.newline ∉ t := by
  induction h with
  | nil => exact List.not_mem_nil
  | plain _ _ hc _ ih => exact List.not_mem_cons_of_ne_of_not_mem (Ne.symm hc) ih
  | escaped hc _ ih =>
    have hrest := List.not_mem_cons_of_ne_of_not_mem (Ne.symm hc) ih
    exact List.not_mem_cons_of_ne_of_not_mem (by decide) hrest

theorem Digits.newline_notMem (h : Digits t) : CodePoint.newline ∉ t := by
  intro hmem
  have hdigit := h.digit _ hmem
  revert hdigit
  decide

theorem newline_notMem_name (h : isName t = true) : CodePoint.newline ∉ t := by
  cases t with
  | nil => exact List.not_mem_nil
  | cons c t =>
    unfold isName at h
    simp only [Bool.and_eq_true, List.all_eq_true] at h
    intro hmem
    rcases List.mem_cons.mp hmem with rfl | hmem
    · exact absurd h.1 (by decide)
    · exact absurd (h.2 _ hmem) (by decide)

theorem newline_notMem_join {names : List Ident} (h : ∀ n ∈ names, isName n = true) :
    CodePoint.newline ∉ Text.join "." names := by
  induction names with
  | nil => exact List.not_mem_nil
  | cons n names ih =>
    have hn := newline_notMem_name (h n (.head _))
    have hrest := ih fun m hm => h m (.tail _ hm)
    cases names with
    | nil => exact hn
    | cons m names =>
      change CodePoint.newline ∉ n ++ ("." : Text) ++ Text.join "." (m :: names)
      simp only [List.mem_append, not_or]
      exact ⟨⟨hn, by decide⟩, hrest⟩

/-- Only runs of newlines hold newlines. -/
theorem eq_newline_of_pattern (h : k.Pattern t) (hn : CodePoint.newline ∈ t) : k = .newline := by
  cases h with
  | newline => rfl
  | float hw hf =>
    rcases List.mem_append.mp hn with hn | hn
    · exact absurd hn hw.newline_notMem
    · exact absurd hn (List.not_mem_cons_of_ne_of_not_mem (by decide) hf.newline_notMem)
  | number ht => exact absurd hn ht.newline_notMem
  | string hb =>
    have hq : CodePoint.newline ≠ '"' := by decide
    simp [hb.newline_notMem, hq] at hn
  | char hb =>
    have hq : CodePoint.newline ≠ '\'' := by decide
    simp [hb.newline_notMem, hq] at hn
  | identifier hname =>
    unfold isIdentifier at hname
    exact absurd hn (newline_notMem_name (Bool.and_eq_true_iff.mp hname).1)
  | dotted _ hnames => exact absurd hn (newline_notMem_join hnames)
  | keyword k => exact absurd hn (by cases k <;> decide)
  | mark m => exact absurd hn (by cases m <;> decide)

/-! ## Numerals -/

theorem digits_takeWhile (hc : c.isDigit = true) (t : Text) :
    Digits ((c :: t).takeWhile CodePoint.isDigit) where
  nonempty := by simp [List.takeWhile_cons_of_pos hc]
  digit := List.all_eq_true.mp List.all_takeWhile

/-- The digits at the beginning of a text. -/
theorem take_leadingDigits (t : Text) :
    t.take (leadingDigits t).length = t.takeWhile CodePoint.isDigit := by
  rw [leadingDigits_length, take_takeWhile]

theorem fraction?_eq_some {ds : List Nat} (h : fraction? t = some ds) :
    ∃ fraction, Digits fraction ∧ digitValues fraction = ds ∧
      t.take (ds.length + 1) = ('.' : CodePoint) :: fraction := by
  unfold fraction? at h
  split at h
  · split at h
    · rename_i c d rest hdot
      cases h
      refine ⟨_, digits_takeWhile hdot.2 rest, rfl, ?_⟩
      rw [List.take_succ_cons, take_leadingDigits, hdot.1]
    · cases h
  · cases h

theorem pattern_numeral (hc : c.isDigit = true) (h : numeral (c :: t) = (.token k, n)) :
    k.Pattern (c :: t.take n) := by
  have hdigits := digits_takeWhile hc t
  have htake := take_leadingDigits (c :: t)
  have hpos : 0 < (leadingDigits (c :: t)).length := by
    rw [leadingDigits_length]
    exact List.length_pos_iff.mpr hdigits.nonempty
  rw [← List.take_succ_cons]
  unfold numeral at h
  dsimp only at h
  split at h
  · rename_i ds hfraction
    cases h
    obtain ⟨fraction, hf, rfl, hrest⟩ := fraction?_eq_some hfraction
    rw [Nat.add_assoc, List.take_add, htake, hrest]
    exact .float hdigits hf
  · split at h
    · rename_i hread
      cases h
      rw [Nat.sub_add_cancel hpos, htake]
      exact .number hdigits hread
    · cases h

/-! ## Literals -/

theorem literalBody_eq_some (h : literalBody quote t = some body) :
    Enclosed quote body ∧ t.take (body.length + 1) = body ++ [quote] := by
  fun_induction literalBody quote t generalizing body with
  | case2 rest =>
    cases h
    exact ⟨.nil, rfl⟩
  | case5 d rest hd hq hn ih =>
    obtain ⟨tail, htail, rfl⟩ := Option.map_eq_some_iff.mp h
    obtain ⟨henclosed, htake⟩ := ih htail
    refine ⟨.escaped hd henclosed, ?_⟩
    change _ :: d :: rest.take (tail.length + 1) = _
    rw [htake]
    rfl
  | case7 c rest hq hn hb ih =>
    obtain ⟨tail, htail, rfl⟩ := Option.map_eq_some_iff.mp h
    obtain ⟨henclosed, htake⟩ := ih htail
    refine ⟨.plain hq hb hn henclosed, ?_⟩
    change c :: rest.take (tail.length + 1) = _
    rw [htake]
    rfl
  | _ => cases h

theorem pattern_literal (hq : quote = '"' ∨ quote = '\'')
    (h : literal quote t = (.token k, n)) : k.Pattern (quote :: t.take n) := by
  unfold literal at h
  split at h
  · cases h
  rename_i body hbody
  obtain ⟨henclosed, htake⟩ := literalBody_eq_some hbody
  split at h
  · cases h
  rename_i text htext
  split at h
  · rename_i hdouble
    cases h
    subst hdouble
    rw [htake]
    exact .string henclosed htext
  rename_i hdouble
  obtain rfl := hq.resolve_left hdouble
  split at h
  · cases h
    rw [htake]
    exact .char henclosed htext
  · cases h

/-! ## Names -/

theorem nameTail_begins (t : Text) : nameTail t <+: t := by
  fun_induction nameTail t with
  | case2 c rest hc ih => exact List.cons_prefix_cons.mpr ⟨rfl, ih⟩
  | case3 d rest hd hc ih =>
    exact List.cons_prefix_cons.mpr ⟨rfl, List.cons_prefix_cons.mpr ⟨rfl, ih⟩⟩
  | _ => exact List.nil_prefix

theorem join_consPart (c : CodePoint) (p : Text) (ps : List Text) :
    Text.join "." (Text.consPart c (p :: ps)) = c :: Text.join "." (p :: ps) := by
  cases ps <;> rfl

theorem splitDots_ne_nil (t : Text) : splitDots t ≠ [] := by
  cases t with
  | nil => simp [splitDots]
  | cons c t =>
    unfold splitDots
    split
    · simp
    · cases splitDots t <;> simp [Text.consPart]

theorem join_splitDots (t : Text) : Text.join "." (splitDots t) = t := by
  induction t with
  | nil => rfl
  | cons c t ih =>
    obtain ⟨p, ps, hparts⟩ := List.exists_cons_of_ne_nil (splitDots_ne_nil t)
    rw [hparts] at ih
    unfold splitDots
    rw [hparts]
    split
    · rename_i hdot
      rw [hdot]
      change ([] : Text) ++ ("." : Text) ++ Text.join "." (p :: ps) = _
      rw [ih]
      rfl
    · rw [join_consPart, ih]

/-- Behind its beginning a name goes on with the rest of its first part and then with whole names. -/
theorem splitDots_nameTail (t : Text) : ∃ p ps, splitDots (nameTail t) = p :: ps ∧
    p.all continuesName = true ∧ ∀ n ∈ ps, isName n = true := by
  fun_induction nameTail t with
  | case2 c rest hc ih =>
    obtain ⟨p, ps, hsplit, hp, hps⟩ := ih
    refine ⟨c :: p, ps, ?_, by simp [hc, hp], hps⟩
    have hdot : c ≠ '.' := by
      rintro rfl
      revert hc
      decide
    rw [splitDots, if_neg hdot, hsplit]
    rfl
  | case3 d rest hd hc ih =>
    obtain ⟨p, ps, hsplit, hp, hps⟩ := ih
    refine ⟨[], (d :: p) :: ps, ?_, rfl, ?_⟩
    · have hdot : d ≠ '.' := by
        rintro rfl
        revert hd
        decide
      rw [splitDots, if_pos rfl, splitDots, if_neg hdot, hsplit]
      rfl
    · intro n hn
      rcases List.mem_cons.mp hn with rfl | hn
      · simp [isName, hd, hp]
      · exact hps n hn
  | _ => exact ⟨[], [], rfl, rfl, by simp⟩

theorem text_of_ofText? {name : Text} {k : Keyword} (h : Keyword.ofText? name = some k) :
    k.text = name := by
  simpa using List.find?_some h

theorem pattern_name (hc : startsName c = true) (t : Text) :
    (nameKind (c :: nameTail t)).Pattern (c :: nameTail t) := by
  obtain ⟨p, ps, hsplit, hp, hps⟩ := splitDots_nameTail t
  have hdot : c ≠ '.' := by
    rintro rfl
    revert hc
    decide
  have hparts : splitDots (c :: nameTail t) = (c :: p) :: ps := by
    rw [splitDots, if_neg hdot, hsplit]
    rfl
  have hjoin := join_splitDots (c :: nameTail t)
  have hname : isName (c :: p) = true := by simp [isName, hc, hp]
  unfold nameKind
  rw [hparts] at hjoin ⊢
  cases ps with
  | nil =>
    obtain rfl : p = nameTail t := (List.cons.inj hjoin).2
    dsimp only
    split
    · rename_i k hk
      have hpattern := Token.Kind.Pattern.keyword k
      rwa [text_of_ofText? hk] at hpattern
    · rename_i hnone
      exact .identifier (by simp [isIdentifier, hname, hnone])
  | cons n ps =>
    have hnames : ∀ m ∈ (c :: p) :: n :: ps, isName m = true := by
      intro m hm
      rcases List.mem_cons.mp hm with rfl | hm
      · exact hname
      · exact hps m hm
    have hpattern := Token.Kind.Pattern.dotted (by simp) hnames
    rwa [hjoin] at hpattern

/-! ## Pieces -/

theorem takeWhile_newlines (t : Text) : ∃ n,
    t.takeWhile (· == CodePoint.newline) = List.replicate n CodePoint.newline := by
  refine ⟨_, List.eq_replicate_iff.mpr ⟨rfl, fun c hc => ?_⟩⟩
  simpa using List.all_eq_true.mp List.all_takeWhile c hc

/-- What is taken for a token is a lexeme of its kind. -/
theorem pattern_of_piece (h : piece c t = (.token k, n)) : k.Pattern (c :: t.take n) := by
  unfold piece at h
  split at h
  · cases h
  split at h
  · cases h
  split at h
  · rename_i hdigit
    exact pattern_numeral hdigit h
  split at h
  · rename_i hquote
    exact pattern_literal hquote h
  split at h
  · rename_i hname
    cases h
    rw [← (List.prefix_iff_eq_take.mp (nameTail_begins t))]
    exact pattern_name hname t
  split at h
  · rename_i hnewline
    cases h
    obtain ⟨n, hn⟩ := takeWhile_newlines t
    rw [take_takeWhile, hn, hnewline]
    exact .newline n
  split at h
  · rename_i m hmark
    cases h
    have hfound : m.text.isPrefixOf (c :: t) = true :=
      List.find?_some (p := fun m : Mark => m.text.isPrefixOf (c :: t)) hmark
    have hpos : 0 < m.text.length := by cases m <;> decide
    have htext := List.prefix_iff_eq_take.mp (List.isPrefixOf_iff_prefix.mp hfound)
    rw [← List.take_succ_cons, Nat.sub_add_cancel hpos, ← htext]
    exact .mark m
  · cases h

theorem numeral_ne_gap (t : Text) : (numeral t).1 ≠ .gap := by
  unfold numeral
  dsimp only
  split
  · simp
  · split <;> simp

theorem literal_ne_gap (quote : CodePoint) (t : Text) : (literal quote t).1 ≠ .gap := by
  unfold literal
  split
  · simp
  split
  · simp
  split
  · simp
  split <;> simp

theorem drop_takeWhile (p : CodePoint → Bool) (t : Text) :
    t.drop (t.takeWhile p).length = t.dropWhile p := by
  have hdrop : (t.takeWhile p ++ t.dropWhile p).drop (t.takeWhile p).length = t.dropWhile p :=
    List.drop_left
  rwa [List.takeWhile_append_dropWhile] at hdrop

/-- What is passed over is a blank, or a comment up to the end of its line. -/
theorem gap_of_piece (h : piece c t = (.gap, n)) :
    (isBlank c = true ∧ n = 0) ∨ ∃ body, c :: t.take n = ("//" : Text) ++ body ∧
      CodePoint.newline ∉ body ∧ ∀ d ∈ (t.drop n).head?, d = CodePoint.newline := by
  unfold piece at h
  split at h
  · rename_i hblank
    cases h
    exact .inl ⟨hblank, rfl⟩
  split at h
  · rename_i hcomment
    cases h
    refine .inr ?_
    have hend : ∀ d ∈ (t.drop (t.takeWhile (· != CodePoint.newline)).length).head?,
        d = CodePoint.newline := by
      intro d hd
      have hhead := List.head?_dropWhile_not (· != CodePoint.newline) t
      rw [drop_takeWhile] at hd
      rw [Option.mem_def.mp hd] at hhead
      simpa using hhead
    obtain ⟨body, hbody⟩ := List.isPrefixOf_iff_prefix.mp hcomment
    have hslashes : ('/' : CodePoint) :: ('/' : CodePoint) :: body = c :: t := hbody
    obtain ⟨rfl, rfl⟩ := List.cons.inj hslashes
    refine ⟨body.takeWhile (· != CodePoint.newline), ?_, newline_notMem_takeWhile rfl _, hend⟩
    rw [take_takeWhile]
    rfl
  split at h
  · exact absurd (congrArg Prod.fst h) (numeral_ne_gap _)
  split at h
  · exact absurd (congrArg Prod.fst h) (literal_ne_gap _ _)
  split at h
  · cases h
  split at h
  · cases h
  split at h <;> cases h

end Scan

end ModuleScript
