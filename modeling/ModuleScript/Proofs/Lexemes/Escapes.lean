import ModuleScript.Proofs.Excerpts.Pieces
import ModuleScript.Proofs.Lexemes.Patterns

/-!
# Escapes in literals

The text between two quotes is read in units from the left: a plain code point, a backslash with its
code, or a backslash with `u` and four hexadecimal digits. It means what its units mean, one after the
other. It is refused at the first backslash that begins no unit, and no literal that is scanned ends
on such a backslash.
-/

set_option autoImplicit false

namespace ModuleScript.Escape

open Scan

/-! ## Units -/

/-- The number with these hexadecimal digits, the most significant first. -/
def hexNumber (digits : Text) : Nat := digits.foldl (fun n d => 16 * n + d.hexValue) 0

/-- A unit and the code point that it stands for. -/
inductive Denotes : Text → CodePoint → Prop where
  | plain {c : CodePoint} : c ≠ '\\' → Denotes [c] c
  | code {code m : CodePoint} : (code, m) ∈ codes → Denotes ['\\', code] m
  | hex {digits : Text} {m : CodePoint} : digits.length = 4 →
      (∀ d ∈ digits, d.isHexDigit = true) → m.val = hexNumber digits →
      Denotes ('\\' :: 'u' :: digits) m

/-- A text made of units, and what they stand for in order. -/
inductive Spells : Text → Text → Prop where
  | nil : Spells [] []
  | cons {u t s : Text} {m : CodePoint} : Denotes u m → Spells t s → Spells (u ++ t) (m :: s)

/-- A unit stands at the beginning. -/
def BeginsUnit (t : Text) : Prop := ∃ u m rest, Denotes u m ∧ t = u ++ rest

variable {t u s rest before body : Text} {c code m quote : CodePoint}

theorem Denotes.length_pos (h : Denotes u m) : 0 < u.length := by
  cases h <;> simp

/-! ## Reading units -/

theorem meaning?_eq_some_iff : meaning? code = some m ↔ (code, m) ∈ codes := by
  constructor
  · intro h
    unfold meaning? at h
    obtain ⟨p, hp, rfl⟩ := Option.map_eq_some_iff.mp h
    have hcode : p.1 = code := by simpa using List.find?_some hp
    rw [← hcode]
    exact List.mem_of_find?_eq_some hp
  · intro h
    exact (codes_sound _ h).1

theorem hexValue_lt (h : c.isHexDigit = true) : c.hexValue < 16 := by
  unfold CodePoint.isHexDigit CodePoint.hexValue CodePoint.between at *
  simp only [Bool.or_eq_true, Bool.and_eq_true, decide_eq_true_eq] at h ⊢
  have h0 : ('0' : Char).toNat = 48 := rfl
  have h9 : ('9' : Char).toNat = 57 := rfl
  have ha : ('a' : Char).toNat = 97 := rfl
  have hf : ('f' : Char).toNat = 102 := rfl
  have hA : ('A' : Char).toNat = 65 := rfl
  have hF : ('F' : Char).toNat = 70 := rfl
  split
  · omega
  · split <;> omega

theorem val_ofHex {h₁ h₂ h₃ h₄ : CodePoint} (h : ∀ d ∈ [h₁, h₂, h₃, h₄], d.isHexDigit = true) :
    (ofHex h₁ h₂ h₃ h₄).val = hexNumber [h₁, h₂, h₃, h₄] := by
  have hlt : ∀ d ∈ [h₁, h₂, h₃, h₄], d.hexValue < 16 := fun d hd => hexValue_lt (h d hd)
  simp only [List.forall_mem_cons, List.not_mem_nil, false_implies, implies_true, and_true] at hlt
  unfold ofHex CodePoint.ofNat hexNumber
  simp only [List.foldl_cons, List.foldl_nil]
  rw [dif_pos (by omega)]
  dsimp only
  omega

theorem unescape_hex {h₁ h₂ h₃ h₄ : CodePoint} (h : ∀ d ∈ [h₁, h₂, h₃, h₄], d.isHexDigit = true)
    (t : Text) :
    unescape ('\\' :: 'u' :: h₁ :: h₂ :: h₃ :: h₄ :: t) =
      (unescape t).map (ofHex h₁ h₂ h₃ h₄ :: ·) := by
  rw [unescape.eq_def]
  dsimp only
  rw [if_pos rfl, if_pos ⟨rfl, List.all_eq_true.mpr h⟩]

theorem unescape_unit (h : Denotes u m) (t : Text) :
    unescape (u ++ t) = (unescape t).map (m :: ·) := by
  cases h with
  | plain hc => exact unescape_plain hc t
  | @code code _ hcode =>
    obtain ⟨hmeaning, hu, -⟩ := codes_sound _ hcode
    have hdecoded := unescape_code hu t
    unfold decoded at hdecoded
    rw [hmeaning] at hdecoded
    exact hdecoded
  | @hex digits _ hlength hdigits hm =>
    match digits, hlength with
    | [h₁, h₂, h₃, h₄], _ =>
      have hval : m = ofHex h₁ h₂ h₃ h₄ := Fin.ext (hm.trans (val_ofHex hdigits).symm)
      rw [hval]
      exact unescape_hex hdigits t

theorem unescape_append (h : Spells before s) (t : Text) :
    unescape (before ++ t) = (unescape t).map (s ++ ·) := by
  induction h with
  | nil =>
    change unescape t = (unescape t).map id
    cases unescape t <;> rfl
  | cons hu _ ih =>
    rw [List.append_assoc, unescape_unit hu, ih]
    cases unescape t <;> rfl

/-! ## Where reading ends -/

/-- No unit stands at the beginning: the text is empty, or begins with a backslash that stands alone or
before a code point with which it is no escape. -/
inductive Stops : Text → Prop where
  | ended : Stops []
  | lone : Stops ['\\']
  | stray {code : CodePoint} {rest : Text} : ¬ BeginsUnit ('\\' :: code :: rest) →
      Stops ('\\' :: code :: rest)

theorem stops_of_not_beginsUnit (h : ¬ BeginsUnit t) : Stops t := by
  cases t with
  | nil => exact .ended
  | cons c rest =>
    have hc : c = '\\' := by
      by_contra hne
      exact h ⟨[c], c, rest, .plain hne, rfl⟩
    subst hc
    cases rest with
    | nil => exact .lone
    | cons code rest => exact .stray h

/-- Every text is made of units up to where no unit stands. -/
theorem exists_stop (t : Text) : ∃ before s rest, t = before ++ rest ∧ Spells before s ∧ Stops rest := by
  induction hn : t.length using Nat.strong_induction_on generalizing t with
  | _ n ih =>
    by_cases hbegins : BeginsUnit t
    · obtain ⟨u, m, t', hu, rfl⟩ := hbegins
      have hshorter : t'.length < n := by
        have hpos := hu.length_pos
        rw [List.length_append] at hn
        omega
      obtain ⟨before, s, rest, rfl, hbefore, hrest⟩ := ih _ hshorter t' rfl
      exact ⟨u ++ before, m :: s, rest, (List.append_assoc _ _ _).symm, .cons hu hbefore, hrest⟩
    · exact ⟨[], [], t, rfl, .nil, stops_of_not_beginsUnit hbegins⟩

theorem unescape_stray (h : ¬ BeginsUnit ('\\' :: code :: rest)) :
    unescape ('\\' :: code :: rest) = .error (.unknown code) := by
  have hnone : meaning? code = none := by
    rw [Option.eq_none_iff_forall_ne_some]
    intro m hm
    exact h ⟨_, m, rest, .code (meaning?_eq_some_iff.mp hm), rfl⟩
  have hdecoded : ∀ r, decoded code r = .error (.unknown code) := by
    intro r
    unfold decoded
    rw [hnone]
  rw [unescape.eq_def]
  dsimp only
  rw [if_pos rfl]
  split
  · rename_i h₁ h₂ h₃ h₄ tail
    split
    · rename_i hhex
      obtain ⟨rfl, hdigits⟩ := hhex
      have hdigits := List.all_eq_true.mp hdigits
      exact absurd ⟨_, _, tail, .hex rfl hdigits (val_ofHex hdigits), rfl⟩ h
    · exact hdecoded _
  · exact hdecoded _

theorem unescape_eq_ok_iff : unescape t = .ok s ↔ Spells t s := by
  constructor
  · intro h
    obtain ⟨before, s', rest, rfl, hbefore, hrest⟩ := exists_stop t
    rw [unescape_append hbefore] at h
    cases hrest with
    | ended =>
      cases h
      simpa using hbefore
    | lone => cases h
    | stray hstray =>
      rw [unescape_stray hstray] at h
      cases h
  · intro h
    have happend := unescape_append h []
    rw [List.append_nil] at happend
    rw [happend]
    exact congrArg Except.ok (List.append_nil s)

theorem unescape_eq_unknown_iff : unescape t = .error (.unknown code) ↔
    ∃ before rest, t = before ++ ('\\' : CodePoint) :: code :: rest ∧ (∃ s, Spells before s) ∧
      ¬ BeginsUnit ('\\' :: code :: rest) := by
  constructor
  · intro h
    obtain ⟨before, s, rest, rfl, hbefore, hrest⟩ := exists_stop t
    rw [unescape_append hbefore] at h
    cases hrest with
    | ended => cases h
    | lone => cases h
    | @stray code' rest hstray =>
      rw [unescape_stray hstray] at h
      cases h
      exact ⟨before, rest, rfl, ⟨s, hbefore⟩, hstray⟩
  · rintro ⟨before, rest, rfl, ⟨s, hbefore⟩, hstray⟩
    rw [unescape_append hbefore, unescape_stray hstray]
    rfl

theorem unescape_eq_dangling_iff : unescape t = .error .dangling ↔
    ∃ before, t = before ++ [('\\' : CodePoint)] ∧ ∃ s, Spells before s := by
  constructor
  · intro h
    obtain ⟨before, s, rest, rfl, hbefore, hrest⟩ := exists_stop t
    rw [unescape_append hbefore] at h
    cases hrest with
    | ended => cases h
    | lone => exact ⟨before, rfl, s, hbefore⟩
    | stray hstray =>
      rw [unescape_stray hstray] at h
      cases h
  · rintro ⟨before, rfl, s, hbefore⟩
    rw [unescape_append hbefore]
    rfl

/-! ## Literals that are scanned -/

theorem enclosed_tail (h : Enclosed quote (c :: t)) (hc : c ≠ '\\') : Enclosed quote t := by
  cases h with
  | plain _ _ _ htail => exact htail
  | escaped => exact absurd rfl hc

theorem enclosed_behind_pair (h : Enclosed quote ('\\' :: c :: t)) : Enclosed quote t := by
  cases h with
  | plain _ hb => exact absurd rfl hb
  | escaped _ htail => exact htail

theorem enclosed_behind_digits {digits : Text} (hdigits : ∀ d ∈ digits, d.isHexDigit = true)
    (h : Enclosed quote (digits ++ rest)) : Enclosed quote rest := by
  induction digits with
  | nil => exact h
  | cons d digits ih =>
    have hd : d ≠ '\\' := by
      rintro rfl
      exact absurd (hdigits _ (.head _)) (by decide)
    exact ih (fun e he => hdigits e (.tail _ he)) (enclosed_tail h hd)

/-- A unit ends where a pair of a backslash and what it takes along does, or farther on. -/
theorem enclosed_behind_unit (hu : Denotes u m) (h : Enclosed quote (u ++ rest)) :
    Enclosed quote rest := by
  cases hu with
  | plain hc => exact enclosed_tail h hc
  | code => exact enclosed_behind_pair h
  | hex _ hdigits => exact enclosed_behind_digits hdigits (enclosed_behind_pair h)

theorem enclosed_behind (hbefore : Spells before s) (h : Enclosed quote (before ++ rest)) :
    Enclosed quote rest := by
  induction hbefore with
  | nil => exact h
  | cons hu _ ih =>
    rw [List.append_assoc] at h
    exact ih (enclosed_behind_unit hu h)

/-- The backslash that a text between quotes ends on belongs to a pair. -/
theorem unescape_ne_dangling (h : literalBody quote t = some body) :
    unescape body ≠ .error .dangling := by
  intro hdangling
  obtain ⟨before, rfl, s, hbefore⟩ := unescape_eq_dangling_iff.mp hdangling
  cases enclosed_behind hbefore (literalBody_eq_some h).1 with
  | plain _ hb => exact absurd rfl hb

theorem flaw_of_piece {n : Nat} {cause : Cause} (h : piece c t = (.flaw cause, n)) :
    (∃ d, cause = .illegalCharacter d) ∨ (∃ lexeme, cause = .notOneCharacter lexeme) ∨
      ∃ code, cause = .badEscape (.unknown code) := by
  unfold piece at h
  split at h
  · cases h
  split at h
  · cases h
  split at h
  · unfold numeral at h
    dsimp only at h
    split at h
    · cases h
    · split at h <;> cases h
  split at h
  · unfold literal at h
    split at h
    · cases h
      exact .inl ⟨_, rfl⟩
    rename_i hbody
    split at h
    · rename_i flaw hflaw
      cases h
      cases flaw with
      | dangling => exact absurd hflaw (unescape_ne_dangling hbody)
      | unknown code => exact .inr (.inr ⟨code, rfl⟩)
    split at h
    · cases h
    split at h
    · cases h
    · cases h
      exact .inr (.inl ⟨_, rfl⟩)
  split at h
  · cases h
  split at h
  · cases h
  split at h
  · cases h
  · cases h
    exact .inl ⟨_, rfl⟩

/-! ## Messages -/

/-- The text is refused with this message. -/
def Refused (t message : Text) : Prop :=
  ∃ flaw, unescape t = .error flaw ∧ (Cause.badEscape flaw).message = message

/-- What is said of a backslash before a code point with which it is no escape. -/
def unknownMessage (code : CodePoint) : Text := "Unknown escape sequence '\\" ++ [code] ++ "'"

def danglingMessage : Text := "Unexpected end of literal after '\\'"

theorem unknownMessage_ne (code : CodePoint) : unknownMessage code ≠ danglingMessage := by
  intro h
  have hthird := congrArg (fun t : Text => t[2]?) h
  cases hthird

theorem refused_unknown_iff :
    Refused t (unknownMessage code) ↔ unescape t = .error (.unknown code) := by
  constructor
  · rintro ⟨flaw, hflaw, hmessage⟩
    cases flaw with
    | dangling => exact absurd hmessage.symm (unknownMessage_ne code)
    | unknown code' =>
      have hcode : unknownMessage code' = unknownMessage code := hmessage
      unfold unknownMessage at hcode
      simp only [List.append_assoc, List.append_cancel_left_eq, List.append_cancel_right_eq,
        List.cons.injEq, and_true] at hcode
      rw [hflaw, hcode]
  · intro h
    exact ⟨_, h, rfl⟩

theorem refused_dangling_iff : Refused t danglingMessage ↔ unescape t = .error .dangling := by
  constructor
  · rintro ⟨flaw, hflaw, hmessage⟩
    cases flaw with
    | dangling => exact hflaw
    | unknown code => exact absurd hmessage (unknownMessage_ne code)
  · intro h
    exact ⟨_, h, rfl⟩

theorem message_ne_of_stop {file source : Text} {r : Report}
    (h : (scan file source).2 = some (.report r)) : r.message ≠ danglingMessage := by
  obtain ⟨cause, l, rest, rfl, hfinds⟩ := finds_of_stop h
  cases hfinds with
  | mk _ hpiece =>
    intro hmessage
    rcases flaw_of_piece hpiece with ⟨d, rfl⟩ | ⟨lexeme, rfl⟩ | ⟨code, rfl⟩
    · have hfirst := congrArg (fun t : Text => t[0]?) hmessage
      cases hfirst
    · have hfirst := congrArg (fun t : Text => t[0]?) hmessage
      cases hfirst
    · exact unknownMessage_ne code hmessage

/-- Unescaping succeeds for the texts that are made of units, with what the units stand for. Otherwise
it is refused at the first backslash that begins no unit: for the code point behind it, or because there
is none, which does not happen to the body of a literal and in the scanning of no source. -/
theorem units_unescaped :
    (∀ t s, unescape t = .ok s ↔ Spells t s) ∧
      (∀ t code, Refused t (unknownMessage code) ↔
        ∃ before rest, t = before ++ ('\\' : CodePoint) :: code :: rest ∧ (∃ s, Spells before s) ∧
          ¬ BeginsUnit ('\\' :: code :: rest)) ∧
      (∀ t, Refused t danglingMessage ↔
        ∃ before, t = before ++ [('\\' : CodePoint)] ∧ ∃ s, Spells before s) ∧
      (∀ quote source body, literalBody quote source = some body → ¬ Refused body danglingMessage) ∧
      ∀ file source r, (scan file source).2 = some (.report r) → r.message ≠ danglingMessage := by
  refine ⟨fun t s => unescape_eq_ok_iff, fun t code => ?_, fun t => ?_, ?_, ?_⟩
  · rw [refused_unknown_iff]
    exact unescape_eq_unknown_iff
  · rw [refused_dangling_iff]
    exact unescape_eq_dangling_iff
  · intro quote source body hbody hrefused
    exact unescape_ne_dangling hbody (refused_dangling_iff.mp hrefused)
  · intro file source r hstop
    exact message_ne_of_stop hstop

theorem units_unescaped_fewDigits :
    literalBody '"' "\\u12\"" = some "\\u12" ∧ ¬ Refused "\\u12" danglingMessage ∧
      (scan [] "\"\\u12\"").2 =
        some (.report ((Cause.badEscape (.unknown 'u')).reportAt (Location.start []))) ∧
      ((Cause.badEscape (.unknown 'u')).reportAt (Location.start [])).message ≠
        danglingMessage := by
  have hbody : literalBody '"' "\\u12\"" = some "\\u12" := by decide +kernel
  have hstop : (scan [] "\"\\u12\"").2 =
      some (.report ((Cause.badEscape (.unknown 'u')).reportAt (Location.start []))) := by
    decide +kernel
  obtain ⟨-, -, -, hliteral, hsource⟩ := units_unescaped
  exact ⟨hbody, hliteral _ _ _ hbody, hstop, hsource _ _ _ hstop⟩

example : Refused "a\\" danglingMessage := ⟨_, rfl, rfl⟩

end ModuleScript.Escape
