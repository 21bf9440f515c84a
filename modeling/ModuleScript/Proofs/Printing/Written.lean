import ModuleScript.Proofs.Display.Scanning
import ModuleScript.Proofs.Printing.Printer

/-!
# Texts that write tokens

A text writes a list of tokens if it spells them one after another, with any blanks between them and
no token running into what follows it. Such a text is scanned as tokens of these kinds.
-/

set_option autoImplicit false

namespace ModuleScript

open Scan

namespace Token.Kind

/-- What follows a token does not continue it. -/
def Apart (k : Token.Kind) (rest : Text) : Prop :=
  match k with
  | .identifier _ | .dotted _ | .number _ | .keyword _ => Delimited rest
  | .mark .slash => ∀ c ∈ rest.head?, c ≠ '/'
  | .mark .assign => ∀ c ∈ rest.head?, c ≠ '=' ∧ c ≠ '>'
  | .mark .bar => ∀ c ∈ rest.head?, c ≠ '|'
  | _ => True

/-- A kind of token that is scanned from its spelling. -/
inductive Spelled : Token.Kind → Prop where
  | identifier {n : Ident} : isIdentifier n = true → Spelled (.identifier n)
  | dotted {names : List Ident} : 2 ≤ names.length → (∀ n ∈ names, isName n = true) →
    Spelled (.dotted names)
  | number {n : Nat} : Decimal.writable n = true → Spelled (.number n)
  | string (t : Text) : Spelled (.string t)
  | char (c : CodePoint) : Spelled (.char c)
  | keyword (k : Keyword) : Spelled (.keyword k)
  | mark (m : Mark) : Spelled (.mark m)

/-- The text spells tokens of these kinds, with blanks around them. -/
inductive Written : List Token.Kind → Text → Prop where
  | nil {blanks : Text} : (∀ c ∈ blanks, isBlank c = true) → Written [] blanks
  | cons {blanks rest : Text} {k : Token.Kind} {ks : List Token.Kind} :
    (∀ c ∈ blanks, isBlank c = true) → k.Apart rest → Written ks rest →
    Written (k :: ks) (blanks ++ (k.spelling ++ rest))

end Token.Kind

namespace Scan

variable {t rest : Text} {c : CodePoint} {ks : List Token.Kind}

/-! ## Names -/

theorem continuesName_of_startsName (h : startsName c = true) : continuesName c = true := by
  unfold continuesName
  rw [h]
  rfl

theorem isName_cons (h : isName (c :: t) = true) :
    startsName c = true ∧ ∀ d ∈ t, continuesName d = true := by
  unfold isName at h
  rw [Bool.and_eq_true, List.all_eq_true] at h
  exact h

theorem exists_of_isName {n : Ident} (h : isName n = true) : ∃ c t, n = c :: t ∧
    startsName c = true ∧ ∀ d ∈ t, continuesName d = true := by
  cases n with
  | nil => cases h
  | cons c t => exact ⟨c, t, rfl, isName_cons h⟩

theorem ne_dot_of_continuesName (h : continuesName c = true) : c ≠ '.' := by
  rintro rfl
  revert h
  decide

theorem nameTail_names (h : ∀ d ∈ t, continuesName d = true) (u : Text) :
    nameTail (t ++ u) = t ++ nameTail u := by
  induction t with
  | nil => rfl
  | cons c t ih =>
    rw [List.cons_append, nameTail.eq_def]
    dsimp only
    rw [if_pos (h c (.head _)), ih fun d hd => h d (.tail _ hd)]
    rfl

theorem nameTail_dot (h : startsName c = true) (u : Text) :
    nameTail (('.' : CodePoint) :: c :: u) = ('.' : CodePoint) :: c :: nameTail u := by
  rw [nameTail.eq_def]
  dsimp only
  rw [if_neg (by decide), if_pos rfl, if_pos h]

/-- The names behind the first of a dotted name. -/
theorem nameTail_join {names : List Ident} (h : ∀ n ∈ names, isName n = true)
    (hrest : Delimited rest) :
    nameTail (names.flatMap (('.' : CodePoint) :: ·) ++ rest) =
      names.flatMap (('.' : CodePoint) :: ·) := by
  induction names with
  | nil => exact nameTail_of_delimited hrest
  | cons n names ih =>
    obtain ⟨c, t, rfl, hc, ht⟩ := exists_of_isName (h n (.head _))
    have htail := ih fun m hm => h m (.tail _ hm)
    rw [List.flatMap_cons, List.append_assoc, List.cons_append, List.cons_append, nameTail_dot hc,
      nameTail_names ht, htail]
    rfl

theorem join_dots (n : Ident) (names : List Ident) :
    Text.join "." (n :: names) = n ++ names.flatMap (('.' : CodePoint) :: ·) := by
  induction names generalizing n with
  | nil => exact (List.append_nil n).symm
  | cons m names ih =>
    rw [List.flatMap_cons, ← List.append_assoc]
    change n ++ ("." : Text) ++ Text.join "." (m :: names) = _
    rw [ih, ← List.append_assoc]
    congr 1
    rw [List.append_assoc]
    rfl

theorem splitDots_append (h : ∀ d ∈ t, continuesName d = true) (u : Text) :
    ∃ part parts, splitDots u = part :: parts ∧ splitDots (t ++ u) = (t ++ part) :: parts := by
  induction t with
  | nil =>
    cases hu : splitDots u with
    | nil =>
      cases u with
      | nil => cases hu
      | cons c u =>
        rw [splitDots] at hu
        split at hu
        · cases hu
        · cases hs : splitDots u <;> rw [hs] at hu <;> cases hu
    | cons part parts => exact ⟨part, parts, rfl, hu⟩
  | cons c t ih =>
    obtain ⟨part, parts, hu, htu⟩ := ih fun d hd => h d (.tail _ hd)
    refine ⟨part, parts, hu, ?_⟩
    rw [List.cons_append, splitDots, if_neg (ne_dot_of_continuesName (h c (.head _))), htu]
    rfl

theorem splitDots_join (n : Ident) (names : List Ident)
    (h : ∀ m ∈ n :: names, ∀ d ∈ m, continuesName d = true) :
    splitDots (n ++ names.flatMap (('.' : CodePoint) :: ·)) = n :: names := by
  induction names generalizing n with
  | nil =>
    obtain ⟨part, parts, hnil, hn⟩ := splitDots_append (h n (.head _)) []
    cases hnil
    rw [List.flatMap_nil, hn, List.append_nil]
  | cons m names ih =>
    obtain ⟨part, parts, hrest, hn⟩ := splitDots_append (h n (.head _))
      (('.' : CodePoint) :: (m ++ names.flatMap (('.' : CodePoint) :: ·)))
    rw [splitDots, if_pos rfl, ih m fun k hk => h k (.tail _ hk)] at hrest
    cases hrest
    rw [List.append_nil] at hn
    exact hn

/-- A letter or underscore begins neither a gap nor any other lexeme. -/
theorem piece_startsName (h : startsName c = true) :
    piece c rest = (.token (nameKind (c :: nameTail rest)), (nameTail rest).length) := by
  have hlt : c.val < 123 := by
    simp only [startsName, CodePoint.between, Bool.or_eq_true, Bool.and_eq_true, decide_eq_true_eq,
      beq_iff_eq] at h
    rcases h with (⟨-, h⟩ | ⟨-, h⟩) | rfl
    · exact Nat.lt_of_le_of_lt h (by decide)
    · exact Nat.lt_of_le_of_lt h (by decide)
    · decide
  have hall : ∀ n : Fin 123, startsName (CodePoint.ofNat n) = true →
      isBlank (CodePoint.ofNat n) = false ∧ CodePoint.ofNat n ≠ '/' ∧
        (CodePoint.ofNat n).isDigit = false ∧ CodePoint.ofNat n ≠ '"' ∧
          CodePoint.ofNat n ≠ '\'' := by decide +kernel
  have hc : CodePoint.ofNat c.val = c := by
    unfold CodePoint.ofNat
    rw [dif_pos c.isLt]
  obtain ⟨hblank, hslash, hdigit, hquote, hprime⟩ := hc ▸ hall ⟨c.val, hlt⟩ (hc.symm ▸ h)
  unfold piece
  rw [if_neg (by simp [hblank]), if_neg (by simp [Text.ofString, hslash.symm]),
    if_neg (by simp [hdigit]), if_neg (by simp [hquote, hprime]), if_pos h]

theorem piece_identifier (hn : isIdentifier (c :: t) = true) (hrest : Delimited rest) :
    piece c (t ++ rest) = (.token (.identifier (c :: t)), t.length) := by
  unfold isIdentifier at hn
  rw [Bool.and_eq_true, Option.isNone_iff_eq_none] at hn
  obtain ⟨hname, hword⟩ := hn
  obtain ⟨hc, ht⟩ := isName_cons hname
  have hall : ∀ d ∈ c :: t, continuesName d = true := by
    intro d hd
    rcases List.mem_cons.mp hd with rfl | hd
    · exact continuesName_of_startsName hc
    · exact ht d hd
  have hsplit : splitDots (c :: t) = [c :: t] := by
    have hjoin := splitDots_join (c :: t) [] (by simpa using hall)
    rwa [List.flatMap_nil, List.append_nil] at hjoin
  have hkind : nameKind (c :: t) = .identifier (c :: t) := by
    unfold nameKind
    rw [hsplit]
    dsimp only
    rw [hword]
  rw [piece_startsName hc, nameTail_append ht hrest, hkind]

theorem scans_identifier {n : Ident} (hn : isIdentifier n = true) (hrest : Delimited rest) :
    Scans n [.identifier n] rest := by
  cases n with
  | nil => cases hn
  | cons c t => exact scans_token (piece_identifier hn hrest)

theorem scans_dotted {names : List Ident} (hlen : 2 ≤ names.length)
    (hnames : ∀ n ∈ names, isName n = true) (hrest : Delimited rest) :
    Scans (Text.join "." names) [.dotted names] rest := by
  match names with
  | n :: m :: names =>
    obtain ⟨c, t, rfl, hc, ht⟩ := exists_of_isName (hnames n (.head _))
    have hall : ∀ k ∈ (c :: t) :: m :: names, ∀ d ∈ k, continuesName d = true := by
      intro k hk d hd
      obtain ⟨e, u, rfl, he, hu⟩ := exists_of_isName (hnames k hk)
      rcases List.mem_cons.mp hd with rfl | hd
      · exact continuesName_of_startsName he
      · exact hu d hd
    have htail := nameTail_join (fun k hk => hnames k (.tail _ hk)) hrest
    have hkind : nameKind (c :: (t ++ (m :: names).flatMap (('.' : CodePoint) :: ·))) =
        .dotted ((c :: t) :: m :: names) := by
      unfold nameKind
      rw [← List.cons_append, splitDots_join _ _ hall]
    rw [join_dots, List.cons_append]
    refine scans_token ?_
    rw [piece_startsName hc, List.append_assoc, nameTail_names ht, htail, hkind]

theorem scans_keyword (k : Keyword) (hrest : Delimited rest) :
    Scans k.text [.keyword k] rest := by
  have hword : ∃ c t, k.text = c :: t ∧ startsName c = true ∧ t.all continuesName = true ∧
      nameKind (c :: t) = .keyword k := by
    cases k <;> exact ⟨_, _, rfl, rfl, rfl, rfl⟩
  obtain ⟨c, t, htext, hc, ht, hkind⟩ := hword
  rw [htext]
  refine scans_token ?_
  rw [piece_startsName hc, nameTail_append (List.all_eq_true.mp ht) hrest, hkind]

/-! ## Marks -/

theorem not_isPrefixOf_pair {a b : CodePoint} (h : ∀ d ∈ rest.head?, d ≠ b) :
    ([a, b] : Text).isPrefixOf (c :: rest) = false := by
  cases rest with
  | nil => exact Bool.and_false _
  | cons d rest =>
    have hd : (b == d) = false := beq_false_of_ne (h d rfl).symm
    change (a == c && (b == d && true)) = false
    rw [hd, Bool.false_and, Bool.and_false]

theorem scans_mark (m : Mark) (hrest : Token.Kind.Apart (.mark m) rest) :
    Scans m.text [.mark m] rest := by
  cases m with
  | slash =>
    have hcomment : ("//" : Text).isPrefixOf ('/' :: rest) = false := not_isPrefixOf_pair hrest
    refine scans_token (t := []) ?_
    change piece '/' rest = _
    unfold piece
    rw [hcomment]
    rfl
  | assign =>
    have hequal : ("==" : Text).isPrefixOf ('=' :: rest) = false :=
      not_isPrefixOf_pair fun c hc => (hrest c hc).1
    have harrow : ("=>" : Text).isPrefixOf ('=' :: rest) = false :=
      not_isPrefixOf_pair fun c hc => (hrest c hc).2
    have hmark : Mark.leading? ('=' :: rest) = some .assign := by
      change (match ("==" : Text).isPrefixOf ('=' :: rest) with
        | true => some Mark.equal
        | false => match ("=>" : Text).isPrefixOf ('=' :: rest) with
          | true => some Mark.arrow
          | false => some Mark.assign) = _
      rw [hequal, harrow]
    refine scans_token (t := []) ?_
    change piece '=' rest = _
    unfold piece
    rw [hmark]
    rfl
  | bar =>
    have hor : ("||" : Text).isPrefixOf ('|' :: rest) = false := not_isPrefixOf_pair hrest
    have hmark : Mark.leading? ('|' :: rest) = some .bar := by
      change (match ("||" : Text).isPrefixOf ('|' :: rest) with
        | true => some Mark.orOr
        | false => some Mark.bar) = _
      rw [hor]
    refine scans_token (t := []) ?_
    change piece '|' rest = _
    unfold piece
    rw [hmark]
    rfl
  | _ => exact scans_token rfl

/-! ## Written texts -/

theorem scans_spelling {k : Token.Kind} (hk : k.Spelled) (hrest : k.Apart rest) :
    Scans k.spelling [k] rest := by
  cases hk with
  | identifier hn => exact scans_identifier hn hrest
  | dotted hlen hnames => exact scans_dotted hlen hnames hrest
  | number hn => exact scans_ofNat hn hrest
  | string t => exact scans_enclosed_text t rest
  | char c => exact scans_enclosed_char c rest
  | keyword k => exact scans_keyword k hrest
  | mark m => exact scans_mark m hrest

theorem scans_blanks {blanks : Text} (h : ∀ c ∈ blanks, isBlank c = true) (rest : Text) :
    Scans blanks [] rest := by
  induction blanks with
  | nil => exact scans_nil rest
  | cons c blanks ih =>
    have hc : Scans [c] [] (blanks ++ rest) := by
      refine scans_gap (t := []) ?_
      unfold piece
      rw [if_pos (h c (.head _))]
      rfl
    exact hc.append (ih fun d hd => h d (.tail _ hd))

end Scan

namespace Token.Kind

variable {ks : List Token.Kind} {t : Text}

theorem Written.scans (h : Written ks t) (hks : ∀ k ∈ ks, k.Spelled) : Scans t ks [] := by
  induction h with
  | nil hblanks => exact scans_blanks hblanks []
  | @cons blanks rest k ks hblanks hapart _ ih =>
    have hrest := ih fun j hj => hks j (.tail _ hj)
    have hspelling : Scans k.spelling [k] (rest ++ []) := by
      rw [List.append_nil]
      exact scans_spelling (hks k (.head _)) hapart
    exact (scans_blanks hblanks _).append (hspelling.append hrest)

theorem Spelled.ne_newline {k : Token.Kind} (h : k.Spelled) : k ≠ .newline := by
  rintro rfl
  cases h

/-- A written text is cut into tokens of the kinds that it writes. -/
theorem Written.tokenize (h : Written ks t) (hks : ∀ k ∈ ks, k.Spelled) (file : Text) :
    ∃ ts, tokenize file t = (ts, none) ∧ ts.map Token.kind = ks :=
  tokenize_of_scans (h.scans hks) (fun hn => (hks _ hn).ne_newline rfl) file

theorem apart_blank (k : Token.Kind) (t : Text) : k.Apart ((" " : Text) ++ t) := by
  have hdelimited : Delimited ((" " : Text) ++ t) := by
    rintro c ⟨⟩
    decide
  unfold Apart
  split
  case h_8 => trivial
  all_goals first | exact hdelimited | (rintro c ⟨⟩; decide)

/-- Blanks after all tokens keep them apart. -/
theorem written_spaced (ks : List Token.Kind) {blanks : Text}
    (h : ∀ c ∈ blanks, isBlank c = true) : Written ks (blanks ++ spaced ks) := by
  induction ks generalizing blanks with
  | nil =>
    change Written [] (blanks ++ [])
    rw [List.append_nil]
    exact .nil h
  | cons k ks ih =>
    have hrest : Written ks ((" " : Text) ++ spaced ks) := by
      refine ih fun c hc => ?_
      rw [List.mem_singleton.mp hc]
      rfl
    have hspaced : spaced (k :: ks) = k.spelling ++ ((" " : Text) ++ spaced ks) := by
      unfold spaced
      rw [List.flatMap_cons, List.append_assoc]
    rw [hspaced]
    exact .cons h (apart_blank k _) hrest

end Token.Kind

end ModuleScript
