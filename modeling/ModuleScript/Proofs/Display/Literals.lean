import ModuleScript.Program.Scan
import Mathlib.Tactic.IntervalCases

/-!
# Literals that are written and scanned

A text that is escaped and put in quotes is scanned as the literal of that text, and the numeral of
a natural number as that number.
-/

set_option autoImplicit false

namespace ModuleScript

/-- Nothing comes next, or a code point that continues neither a name nor a numeral. -/
def Scan.Delimited (rest : Text) : Prop :=
  ∀ c ∈ rest.head?, continuesName c = false ∧ c.isDigit = false ∧ c ≠ '.'

namespace Escape

/-! ## Escapes -/

theorem codes_sound : ∀ p ∈ codes,
    meaning? p.1 = some p.2 ∧ p.1 ≠ 'u' ∧ p.1 ≠ CodePoint.newline := by
  have hall : codes.all (fun p =>
      meaning? p.1 == some p.2 && p.1 != 'u' && p.1 != CodePoint.newline) = true := rfl
  intro p hp
  have hsound := List.all_eq_true.mp hall p hp
  simp only [Bool.and_eq_true, beq_iff_eq, bne_iff_ne] at hsound
  obtain ⟨⟨hmeaning, hu⟩, hn⟩ := hsound
  exact ⟨hmeaning, hu, hn⟩

theorem code?_eq_some {c code : CodePoint} (h : code? c = some code) : (code, c) ∈ codes := by
  unfold code? at h
  obtain ⟨p, hp, rfl⟩ := Option.map_eq_some_iff.mp h
  have hc : p.2 = c := by simpa using List.find?_some hp
  rw [← hc]
  exact List.mem_of_find?_eq_some hp

theorem code?_isSome {c : CodePoint}
    (hc : c ∈ (['"', '\'', '\\', CodePoint.newline] : List CodePoint)) : (code? c).isSome := by
  simp only [List.mem_cons, List.not_mem_nil, or_false] at hc
  rcases hc with rfl | rfl | rfl | rfl <;> rfl

theorem ne_of_code?_eq_none {c d : CodePoint} (h : code? c = none)
    (hd : d ∈ (['"', '\'', '\\', CodePoint.newline] : List CodePoint)) : c ≠ d := by
  rintro rfl
  have hs := code?_isSome hd
  rw [h] at hs
  cases hs

theorem escape_plain {c : CodePoint} (hc : code? c = none) (t : Text) :
    escape (c :: t) = c :: escape t := by
  unfold escape
  rw [List.flatMap_cons, hc]
  rfl

theorem escape_code {c code : CodePoint} (hc : code? c = some code) (t : Text) :
    escape (c :: t) = ('\\' : CodePoint) :: code :: escape t := by
  unfold escape
  rw [List.flatMap_cons, hc]
  rfl

theorem unescape_plain {c : CodePoint} (hc : c ≠ '\\') (t : Text) :
    unescape (c :: t) = (unescape t).map (c :: ·) := by
  cases t with
  | nil =>
    unfold unescape
    rw [if_neg hc]
    rfl
  | cons d t =>
    rw [unescape.eq_def]
    dsimp only
    rw [if_neg hc]

theorem unescape_code {code : CodePoint} (hu : code ≠ 'u') (t : Text) :
    unescape ('\\' :: code :: t) = decoded code (unescape t) := by
  rw [unescape.eq_def]
  dsimp only
  rw [if_pos rfl]
  split
  · rw [if_neg (fun h => hu h.1)]
  · rfl

theorem unescape_escape (t : Text) : unescape (escape t) = .ok t := by
  induction t with
  | nil => rfl
  | cons c t ih =>
    cases hc : code? c with
    | none =>
      have hne : c ≠ '\\' := ne_of_code?_eq_none hc (by decide)
      rw [escape_plain hc, unescape_plain hne, ih]
      rfl
    | some code =>
      obtain ⟨hm, hu, -⟩ := codes_sound _ (code?_eq_some hc)
      rw [escape_code hc, unescape_code hu, ih]
      unfold decoded
      rw [hm]
      rfl

end Escape

namespace Scan

open Escape

theorem literalBody_plain {quote c : CodePoint} (hq : c ≠ quote) (hn : c ≠ CodePoint.newline)
    (hb : c ≠ '\\') (t : Text) :
    literalBody quote (c :: t) = (literalBody quote t).map (c :: ·) := by
  rw [literalBody.eq_def]
  dsimp only
  rw [if_neg hq, if_neg hn, if_neg hb]

theorem literalBody_code {quote code : CodePoint} (hq : quote ≠ '\\')
    (hn : code ≠ CodePoint.newline) (t : Text) :
    literalBody quote ('\\' :: code :: t) =
      (literalBody quote t).map fun body => ('\\' : CodePoint) :: code :: body := by
  rw [literalBody.eq_def]
  dsimp only
  rw [if_neg hq.symm, if_neg (by decide), if_pos rfl, if_neg hn]

/-- The body of a literal made of an escaped text ends at its quote and nowhere before. -/
theorem literalBody_escape {quote : CodePoint} (hq : quote ∈ (['"', '\''] : List CodePoint))
    (t rest : Text) : literalBody quote (escape t ++ quote :: rest) = some (escape t) := by
  have hmem : quote ∈ (['"', '\'', '\\', CodePoint.newline] : List CodePoint) := by
    simp only [List.mem_cons] at hq ⊢
    rcases hq with hq | hq | hq
    · exact .inl hq
    · exact .inr (.inl hq)
    · cases hq
  have hquote : quote ≠ '\\' := by
    intro he
    rw [he] at hq
    revert hq
    decide
  induction t with
  | nil =>
    change literalBody quote (quote :: rest) = some []
    rw [literalBody.eq_def]
    exact if_pos rfl
  | cons c t ih =>
    cases hc : code? c with
    | none =>
      have hne : ∀ d ∈ (['"', '\'', '\\', CodePoint.newline] : List CodePoint), c ≠ d :=
        fun d hd => ne_of_code?_eq_none hc hd
      rw [escape_plain hc, List.cons_append, literalBody_plain (hne quote hmem)
        (hne _ (by decide)) (hne _ (by decide)), ih]
      rfl
    | some code =>
      obtain ⟨-, -, hn⟩ := codes_sound _ (code?_eq_some hc)
      rw [escape_code hc, List.cons_append, List.cons_append, literalBody_code hquote hn, ih]
      rfl

theorem piece_text (t rest : Text) :
    piece '"' (escape t ++ ('"' : CodePoint) :: rest) =
      (.token (.string t), (escape t).length + 1) := by
  change literal '"' (escape t ++ ('"' : CodePoint) :: rest) = _
  unfold literal
  rw [literalBody_escape (by decide)]
  dsimp only
  rw [unescape_escape]
  rfl

theorem piece_char (c : CodePoint) (rest : Text) :
    piece '\'' (escape [c] ++ ('\'' : CodePoint) :: rest) =
      (.token (.char c), (escape [c]).length + 1) := by
  change literal '\'' (escape [c] ++ ('\'' : CodePoint) :: rest) = _
  unfold literal
  rw [literalBody_escape (by decide)]
  dsimp only
  rw [unescape_escape]
  rfl

end Scan

namespace Decimal

/-! ## Numerals -/

/-- The code point of a digit below ten. -/
def symbol (d : Nat) : CodePoint := CodePoint.ofChar (Nat.digitChar d)

theorem digit?_symbol {d : Nat} (hd : d < 10) : (symbol d).digit? = some d := by
  interval_cases d <;> rfl

theorem exists_digits (n : Nat) :
    ∃ ds, ds ≠ [] ∧ (∀ d ∈ ds, d < 10) ∧ ofNat n = ds.map symbol ∧ ofDigits ds = n := by
  induction n using Nat.strong_induction_on with
  | _ n ih =>
    unfold ofNat
    rw [Nat.toDigits_eq_if (by omega)]
    by_cases hn : n < 10
    · refine ⟨[n], by simp, by simpa using hn, ?_, ?_⟩
      · rw [if_pos hn]
        rfl
      · simp [ofDigits]
    · obtain ⟨ds, hne, hlt, htext, hvalue⟩ := ih (n / 10) (by omega)
      refine ⟨ds ++ [n % 10], by simp, ?_, ?_, ?_⟩
      · intro d hd
        rcases List.mem_append.mp hd with hd | hd
        · exact hlt d hd
        · rw [List.mem_singleton.mp hd]
          omega
      · unfold ofNat at htext
        rw [if_neg hn, List.map_append, List.map_append, htext]
        rfl
      · unfold ofDigits at hvalue ⊢
        rw [List.foldl_append, hvalue]
        simp only [List.foldl_cons, List.foldl_nil]
        omega

theorem length_ofNat_le {n k : Nat} (hn : n < tenTo k) (hk : 0 < k) : (ofNat n).length ≤ k := by
  unfold ofNat
  rw [List.length_map]
  exact (Nat.length_toDigits_le_iff (by omega) hk).mpr hn

theorem lt_of_writable {n : Nat} (hn : writable n = true) : n < tenTo maxDigits := by
  unfold writable at hn
  exact of_decide_eq_true hn

theorem lt_tenTo (n : Nat) : n < tenTo n := Nat.lt_pow_self (by omega)

theorem writable_of_le {i : Int} (hi : i.natAbs ≤ maxDigits) : writable i = true :=
  decide_eq_true (Nat.lt_of_le_of_lt hi (lt_tenTo maxDigits))

end Decimal

namespace Scan

open Decimal

theorem leadingDigits_symbols {ds : List Nat} (hd : ∀ d ∈ ds, d < 10) {rest : Text}
    (hrest : ∀ c ∈ rest.head?, c.isDigit = false) : leadingDigits (ds.map symbol ++ rest) = ds := by
  unfold leadingDigits
  induction ds with
  | nil =>
    cases rest with
    | nil => rfl
    | cons c rest =>
      have hc := hrest c rfl
      simp [hc]
  | cons d ds ih =>
    have hsymbol := digit?_symbol (hd d (.head _))
    have hdigit : (symbol d).isDigit = true := by
      unfold CodePoint.isDigit
      rw [hsymbol]
      rfl
    have htail := ih fun e he => hd e (.tail _ he)
    rw [List.map_cons, List.cons_append, List.takeWhile_cons_of_pos hdigit,
      List.filterMap_cons_some hsymbol, htail]

theorem not_isDigit_of_delimited {rest : Text} (h : Delimited rest) :
    ∀ c ∈ rest.head?, c.isDigit = false :=
  fun c hc => (h c hc).2.1

theorem fraction?_of_delimited {rest : Text} (h : Delimited rest) : fraction? rest = none := by
  unfold fraction?
  split
  · rename_i c d rest
    have hc : c ≠ '.' := (h c rfl).2.2
    rw [if_neg fun hp => hc hp.1]
  · rfl

theorem numeral_ofNat {n : Nat} (hn : writable n = true) {rest : Text} (h : Delimited rest) :
    numeral (ofNat n ++ rest) = (.token (.number n), (ofNat n).length - 1) := by
  obtain ⟨ds, -, hlt, htext, hvalue⟩ := exists_digits n
  have hdigits : leadingDigits (ofNat n ++ rest) = ds := by
    rw [htext]
    exact leadingDigits_symbols hlt (not_isDigit_of_delimited h)
  have hlength : ds.length = (ofNat n).length := by
    rw [htext, List.length_map]
  have hread : Decimal.read ds = .ok n := by
    have hle := length_ofNat_le (lt_of_writable hn) (by decide)
    unfold Decimal.read
    rw [if_pos (by omega), hvalue]
  unfold numeral
  dsimp only
  rw [hdigits, hlength, List.drop_left, fraction?_of_delimited h]
  dsimp only
  rw [hread]

theorem piece_ofNat {n : Nat} (hn : writable n = true) :
    ∃ c t, ofNat n = c :: t ∧ ∀ rest, Delimited rest →
      piece c (t ++ rest) = (.token (.number n), t.length) := by
  obtain ⟨ds, hne, hlt, htext, -⟩ := exists_digits n
  cases ds with
  | nil => exact absurd rfl hne
  | cons d ds =>
    refine ⟨symbol d, ds.map symbol, htext, fun rest h => ?_⟩
    have hpiece : ∀ u, piece (symbol d) u = numeral (symbol d :: u) := by
      intro u
      have hd := hlt d (.head _)
      interval_cases d <;> rfl
    have hnumeral := numeral_ofNat hn h
    rw [htext] at hnumeral
    rw [hpiece]
    exact hnumeral

end Scan

end ModuleScript
