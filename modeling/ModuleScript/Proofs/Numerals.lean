import Mathlib.Data.List.TakeWhile
import ModuleScript.Proofs.Lexemes.Patterns
import ModuleScript.Value.Natives

/-!
# Numerals that are parsed

The native `parseVal` takes the white space off both ends of a text and reads what is left as a
numeral: a sign, if there is one, and decimal digits of any script. It yields the integer that was
displayed, also if a plus sign or zeros are put in front of it, and the unit for everything that is no
numeral.
-/

set_option autoImplicit false

namespace ModuleScript.Numerals

open Value Scan

/-! ## White space -/

def Blank (t : Text) : Prop := ∀ c ∈ t, c.isBlank = true

/-- What is left of a text without the white space at both ends. -/
structure Stripped (t s : Text) : Prop where
  around : ∃ u v, Blank u ∧ Blank v ∧ t = u ++ s ++ v
  first : ∀ c ∈ s.head?, c.isBlank = false
  last : ∀ c ∈ s.getLast?, c.isBlank = false

variable {s t u v ds : Text} {i : Int} {c : CodePoint}

theorem dropWhile_blank (hu : Blank u) (ht : ∀ c ∈ t.head?, c.isBlank = false) :
    (u ++ t).dropWhile CodePoint.isBlank = t := by
  rw [List.dropWhile_append_of_pos hu]
  cases t with
  | nil => rfl
  | cons c t => exact List.dropWhile_cons_of_neg (by simp [ht c rfl])

theorem trimEnd_blank (hv : Blank v) (ht : ∀ c ∈ t.getLast?, c.isBlank = false) :
    Text.trimEnd (t ++ v) = t := by
  unfold Text.trimEnd Text.dropEndWhile
  have hreverse : Blank v.reverse := fun c hc => hv c (List.mem_reverse.mp hc)
  rw [List.reverse_append, dropWhile_blank hreverse (by rwa [List.head?_reverse]),
    List.reverse_reverse]

theorem trim_blank (hu : Blank u) : Text.trim u = [] := by
  have hdrop := dropWhile_blank (t := []) hu (by simp)
  rw [List.append_nil] at hdrop
  unfold Text.trim
  rw [hdrop]
  rfl

/-- The white space at both ends is all that is taken off. -/
theorem Stripped.trim_eq (h : Stripped t s) : Text.trim t = s := by
  obtain ⟨⟨u, v, hu, hv, rfl⟩, hfirst, hlast⟩ := h
  cases s with
  | nil =>
    rw [List.append_nil]
    refine trim_blank fun c hc => ?_
    rcases List.mem_append.mp hc with hc | hc
    · exact hu c hc
    · exact hv c hc
  | cons c s =>
    have hdrop := dropWhile_blank (t := c :: s ++ v) hu hfirst
    unfold Text.trim
    rw [List.append_assoc, hdrop, trimEnd_blank hv hlast]

theorem blank_takeWhile (t : Text) : Blank (t.takeWhile CodePoint.isBlank) :=
  List.all_eq_true.mp List.all_takeWhile

theorem head?_dropWhile (t : Text) :
    ∀ c ∈ (t.dropWhile CodePoint.isBlank).head?, c.isBlank = false := by
  intro c hc
  have hhead := List.head?_dropWhile_not CodePoint.isBlank t
  rw [Option.mem_def.mp hc] at hhead
  simpa using hhead

theorem trimEnd_append (t : Text) : ∃ v, Blank v ∧ t = Text.trimEnd t ++ v := by
  refine ⟨(t.reverse.takeWhile CodePoint.isBlank).reverse, fun c hc => ?_, ?_⟩
  · exact blank_takeWhile _ c (List.mem_reverse.mp hc)
  · unfold Text.trimEnd Text.dropEndWhile
    rw [← List.reverse_append, List.takeWhile_append_dropWhile, List.reverse_reverse]

theorem getLast?_trimEnd (t : Text) : ∀ c ∈ (Text.trimEnd t).getLast?, c.isBlank = false := by
  unfold Text.trimEnd Text.dropEndWhile
  rw [List.getLast?_reverse]
  exact head?_dropWhile _

theorem stripped_trim (t : Text) : Stripped t (Text.trim t) := by
  obtain ⟨v, hv, htext⟩ := trimEnd_append (t.dropWhile CodePoint.isBlank)
  refine ⟨⟨t.takeWhile CodePoint.isBlank, v, blank_takeWhile t, hv, ?_⟩, ?_, getLast?_trimEnd _⟩
  · unfold Text.trim
    rw [List.append_assoc, ← htext, List.takeWhile_append_dropWhile]
  · intro c hc
    have hhead : (Text.trimEnd (t.dropWhile CodePoint.isBlank)).head? = some c := hc
    refine head?_dropWhile t c ?_
    rw [htext, List.head?_append, hhead]
    rfl

/-! ## Numerals -/

/-- The integer with these digits, the most significant first. -/
def valueOf (ds : Text) : Int := Decimal.ofDigits (digitValues ds)

/-- The text consists of a sign, which may be missing, and of these digits, and names this integer. -/
inductive Names (ds : Text) : Text → Int → Prop where
  | bare : Names ds ds (valueOf ds)
  | plus : Names ds ('+' :: ds) (valueOf ds)
  | minus : Names ds ('-' :: ds) (-valueOf ds)

/-- A sign, which may be missing, and at least one decimal digit of any script. -/
def IsNumeral (s : Text) : Prop := ∃ ds i, Digits ds ∧ Names ds s i

theorem isBlank_of_isDigit (hc : c.isDigit = true) : c.isBlank = false := by
  have hapart : ∀ z ∈ CodePoint.zeros, ∀ r ∈ CodePoint.blankRanges, z + 9 < r.1 ∨ r.2 < z := by
    decide
  unfold CodePoint.isDigit CodePoint.digit? at hc
  rw [Option.isSome_map, List.find?_isSome] at hc
  obtain ⟨z, hz, hrange⟩ := hc
  rw [Bool.and_eq_true, decide_eq_true_iff, decide_eq_true_iff] at hrange
  unfold CodePoint.isBlank
  rw [List.any_eq_false]
  intro r hr hblank
  rw [Bool.and_eq_true, decide_eq_true_iff, decide_eq_true_iff] at hblank
  have := hapart z hz r hr
  omega

/-- A numeral does not begin or end with white space. -/
theorem stripped_numeral (hu : Blank u) (hv : Blank v) (hds : Digits ds) (h : Names ds s i) :
    Stripped (u ++ s ++ v) s := by
  obtain ⟨hne, hdigit⟩ := hds
  have hlast : ∀ c ∈ ds.getLast?, c.isBlank = false := fun c hc =>
    isBlank_of_isDigit (hdigit c (List.mem_of_getLast? hc))
  obtain ⟨d, ds, rfl⟩ := List.exists_cons_of_ne_nil hne
  refine ⟨⟨u, v, hu, hv, rfl⟩, ?_, ?_⟩
  · cases h with
    | bare =>
      rintro c ⟨⟩
      exact isBlank_of_isDigit (hdigit d (.head _))
    | plus | minus =>
      rintro c ⟨⟩
      rfl
  · cases h with
    | bare => exact hlast
    | plus | minus => exact hlast

/-! ## Parsing -/

theorem mapM_digit? (hds : ∀ c ∈ ds, c.isDigit = true) :
    ds.mapM CodePoint.digit? = some (digitValues ds) := by
  induction ds with
  | nil => rfl
  | cons d ds ih =>
    obtain ⟨n, hn⟩ := Option.isSome_iff_exists.mp (hds d (.head _))
    have hrest := ih fun c hc => hds c (.tail _ hc)
    unfold digitValues at hrest ⊢
    rw [List.mapM_cons, hn, hrest, List.filterMap_cons_some hn]
    rfl

theorem readDigits_of_digits (hds : Digits ds) : readDigits ds = some (digitValues ds) := by
  unfold readDigits
  rw [if_neg (by simpa using hds.nonempty), mapM_digit? hds.digit]

theorem isDigit_of_mapM {ns : List Nat} (h : ds.mapM CodePoint.digit? = some ns) :
    ∀ c ∈ ds, c.isDigit = true := by
  induction ds generalizing ns with
  | nil => simp
  | cons d ds ih =>
    rw [List.mapM_cons] at h
    obtain ⟨n, hn, h⟩ := Option.bind_eq_some_iff.mp h
    obtain ⟨ns', hns, -⟩ := Option.bind_eq_some_iff.mp h
    intro c hc
    rcases List.mem_cons.mp hc with rfl | hc
    · exact Option.isSome_iff_exists.mpr ⟨n, hn⟩
    · exact ih hns c hc

theorem digits_of_readDigits {ns : List Nat} (h : readDigits ds = some ns) : Digits ds := by
  unfold readDigits at h
  split at h
  · cases h
  · rename_i hne
    exact ⟨by simpa using hne, isDigit_of_mapM h⟩

/-- The integer with this sign and these digits. -/
def signed (negative : Bool) (n : Int) : Int := if negative then -n else n

theorem splitSign_of_names (hds : Digits ds) (h : Names ds s i) :
    ∃ negative, splitSign s = (negative, ds) ∧ i = signed negative (valueOf ds) := by
  cases h with
  | plus => exact ⟨false, rfl, rfl⟩
  | minus => exact ⟨true, rfl, rfl⟩
  | bare =>
    obtain ⟨hne, hdigit⟩ := hds
    obtain ⟨d, ds, rfl⟩ := List.exists_cons_of_ne_nil hne
    have hd := hdigit d (.head _)
    have hminus : d ≠ '-' := by
      rintro rfl
      exact absurd hd (by decide)
    have hplus : d ≠ '+' := by
      rintro rfl
      exact absurd hd (by decide)
    refine ⟨false, ?_, rfl⟩
    unfold splitSign
    dsimp only
    rw [if_neg hminus, if_neg hplus]

theorem names_of_splitSign {negative : Bool} (h : splitSign s = (negative, ds)) :
    ∃ i, Names ds s i := by
  unfold splitSign at h
  split at h
  · cases h
    exact ⟨_, .bare⟩
  · split at h
    · rename_i hc
      cases h
      rw [hc]
      exact ⟨_, .minus⟩
    · split at h
      · rename_i hc
        cases h
        rw [hc]
        exact ⟨_, .plus⟩
      · cases h
        exact ⟨_, .bare⟩

/-- The text of a text, or of a char. -/
inductive TextOf : Value → Text → Prop where
  | text (t : Text) : TextOf (text t) t
  | char (c : CodePoint) : TextOf (char c) [c]

theorem parseInteger_eq {v : Value} (h : TextOf v t) : v.parseInteger =
    match readDigits (splitSign (Text.trim t)).2 with
    | none => .ok unit
    | some ns => do
      let n ← Failure.lift (Decimal.read ns)
      return int (signed (splitSign (Text.trim t)).1 n) := by
  cases h <;> rfl

theorem leadingDigits_of_digits (hds : ∀ c ∈ ds, c.isDigit = true) :
    leadingDigits ds = digitValues ds := by
  unfold leadingDigits
  rw [List.takeWhile_eq_self_iff.mpr hds]
  rfl

theorem length_digitValues (hds : ∀ c ∈ ds, c.isDigit = true) :
    (digitValues ds).length = ds.length := by
  rw [← leadingDigits_of_digits hds, leadingDigits_length, List.takeWhile_eq_self_iff.mpr hds]

/-- What is read for these digits and this integer: the integer, unless there are too many digits. -/
def outcome (ds : Text) (i : Int) : Except Failure Value :=
  if ds.length ≤ Decimal.maxDigits then .ok (int i) else .error (.fault (.numeralTooLong ds.length))

theorem parseInteger_of_numeral {v : Value} (ht : TextOf v t) (hds : Digits ds)
    (h : Names ds (Text.trim t) i) : v.parseInteger = outcome ds i := by
  obtain ⟨negative, hsplit, rfl⟩ := splitSign_of_names hds h
  rw [parseInteger_eq ht, hsplit, readDigits_of_digits hds]
  dsimp only
  unfold Decimal.read outcome
  rw [length_digitValues hds.digit]
  split <;> rfl

theorem parseInteger_unit_iff {v : Value} (ht : TextOf v t) :
    v.parseInteger = .ok unit ↔ ¬ IsNumeral (Text.trim t) := by
  constructor
  · rintro h ⟨ds, i, hds, hnames⟩
    rw [parseInteger_of_numeral ht hds hnames] at h
    unfold outcome at h
    split at h <;> cases h
  · intro h
    rw [parseInteger_eq ht]
    cases hread : readDigits (splitSign (Text.trim t)).2 with
    | none => rfl
    | some ns =>
      obtain ⟨i, hnames⟩ := names_of_splitSign (s := Text.trim t) rfl
      exact absurd ⟨_, i, digits_of_readDigits hread, hnames⟩ h

/-! ## Integers that are written -/

/-- The digits of a natural number behind so many zeros. -/
def padded (zeros n : Nat) : Text := List.replicate zeros ('0' : CodePoint) ++ Decimal.ofNat n

/-- An integer is written with its digits and any number of zeros in front of them, within the limit on
digits, behind a sign, which a natural number may do without. -/
inductive Written : Int → Text → Prop where
  | natural {sign : Text} {zeros n : Nat} : sign = [] ∨ sign = "+" →
      (padded zeros n).length ≤ Decimal.maxDigits → Written n (sign ++ padded zeros n)
  | negative {zeros n : Nat} : (padded zeros n).length ≤ Decimal.maxDigits →
      Written (-n) ('-' :: padded zeros n)

theorem isDigit_symbol {d : Nat} (hd : d < 10) : (Decimal.symbol d).isDigit = true :=
  Option.isSome_iff_exists.mpr ⟨d, Decimal.digit?_symbol hd⟩

theorem valueOf_symbols {ns : List Nat} (hns : ∀ n ∈ ns, n < 10) :
    valueOf (ns.map Decimal.symbol) = Decimal.ofDigits ns := by
  have hdigit : ∀ c ∈ ns.map Decimal.symbol, c.isDigit = true := by
    intro c hc
    obtain ⟨n, hn, rfl⟩ := List.mem_map.mp hc
    exact isDigit_symbol (hns n hn)
  have hleading : leadingDigits (ns.map Decimal.symbol ++ []) = ns :=
    leadingDigits_symbols hns (by simp)
  rw [List.append_nil, leadingDigits_of_digits hdigit] at hleading
  unfold valueOf
  rw [hleading]

/-- Zeros in front do not change what digits mean. -/
theorem ofDigits_zeros (zeros : Nat) (ns : List Nat) :
    Decimal.ofDigits (List.replicate zeros 0 ++ ns) = Decimal.ofDigits ns := by
  induction zeros with
  | zero => rfl
  | succ zeros ih => exact ih

theorem numeral_of_padded (zeros n : Nat) :
    Digits (padded zeros n) ∧ valueOf (padded zeros n) = n := by
  obtain ⟨ns, hne, hns, htext, hvalue⟩ := Decimal.exists_digits n
  have hpadded : padded zeros n = (List.replicate zeros 0 ++ ns).map Decimal.symbol := by
    unfold padded
    rw [List.map_append, List.map_replicate, htext]
    rfl
  have hlt : ∀ d ∈ List.replicate zeros 0 ++ ns, d < 10 := by
    intro d hd
    rcases List.mem_append.mp hd with hd | hd
    · rw [List.eq_of_mem_replicate hd]
      omega
    · exact hns d hd
  rw [hpadded]
  refine ⟨⟨by simp [hne], fun c hc => ?_⟩, ?_⟩
  · obtain ⟨d, hd, rfl⟩ := List.mem_map.mp hc
    exact isDigit_symbol (hlt d hd)
  · rw [valueOf_symbols hlt, ofDigits_zeros, hvalue]

/-- What is written for an integer is a numeral of this integer. -/
theorem Written.names (h : Written i t) :
    ∃ ds, Digits ds ∧ Names ds t i ∧ ds.length ≤ Decimal.maxDigits := by
  cases h with
  | @natural sign zeros n hsign hlength =>
    obtain ⟨hds, hvalue⟩ := numeral_of_padded zeros n
    refine ⟨_, hds, ?_, hlength⟩
    rw [← hvalue]
    rcases hsign with rfl | rfl
    · exact .bare
    · exact .plus
  | @negative zeros n hlength =>
    obtain ⟨hds, hvalue⟩ := numeral_of_padded zeros n
    refine ⟨_, hds, ?_, hlength⟩
    rw [← hvalue]
    exact .minus

theorem length_padded {n : Nat} (hn : Decimal.writable n = true) :
    (padded 0 n).length ≤ Decimal.maxDigits :=
  Decimal.length_ofNat_le (Decimal.lt_of_writable hn) (by decide)

/-- What is displayed for an integer is written for it. -/
theorem written_of_display (hi : Decimal.writable i = true) :
    ∃ shown, (int i).display = .ok shown ∧ Written i shown := by
  have hdisplay : (int i).display = .ok (Decimal.ofInt i) := by
    change Decimal.ofInt? i = _
    unfold Decimal.ofInt?
    rw [if_pos hi]
  refine ⟨_, hdisplay, ?_⟩
  cases i with
  | ofNat n => exact @Written.natural [] 0 n (.inl rfl) (length_padded hi)
  | negSucc n => exact @Written.negative 0 (n + 1) (length_padded hi)

theorem parseInteger_written (h : Written i t) (hu : Blank u) (hv : Blank v) :
    (text (u ++ t ++ v)).parseInteger = .ok (int i) := by
  obtain ⟨ds, hds, hnames, hlength⟩ := h.names
  have htrim : Text.trim (u ++ t ++ v) = t := (stripped_numeral hu hv hds hnames).trim_eq
  rw [← htrim] at hnames
  rw [parseInteger_of_numeral (.text _) hds hnames]
  exact if_pos hlength

/-! ## The native -/

/-- The result of the native for one argument. -/
def parseVal (v : Value) : Option (Except Failure Value) := applyNative? .parseVal [v]

/-- What is displayed for an integer is parsed as this integer, and so is what has a plus sign or zeros
in front, between any white space. Of a text or char without the white space at its ends, the numerals
within the limit on digits are parsed as what they name, and exactly what is no numeral gives the
unit. -/
theorem integers_parsed :
    (∀ i, Decimal.writable i = true → ∃ shown, (int i).display = .ok shown ∧
        ∀ u v, Blank u → Blank v → parseVal (text (u ++ shown ++ v)) = some (.ok (int i))) ∧
      (∀ i t u v, Written i t → Blank u → Blank v →
        parseVal (text (u ++ t ++ v)) = some (.ok (int i))) ∧
      ∀ v t, TextOf v t → Stripped t (Text.trim t) ∧
        (parseVal v = some (.ok unit) ↔ ¬ IsNumeral (Text.trim t)) ∧
        ∀ ds i, Digits ds → Names ds (Text.trim t) i → parseVal v = some (outcome ds i) := by
  refine ⟨fun i hi => ?_, fun i t u v h hu hv => ?_, fun v t ht => ⟨stripped_trim t, ?_, ?_⟩⟩
  · obtain ⟨shown, hshown, hwritten⟩ := written_of_display hi
    exact ⟨shown, hshown, fun u v hu hv => congrArg some (parseInteger_written hwritten hu hv)⟩
  · exact congrArg some (parseInteger_written h hu hv)
  · rw [← parseInteger_unit_iff ht]
    exact Option.some_inj
  · intro ds i hds hnames
    exact congrArg some (parseInteger_of_numeral ht hds hnames)

theorem integers_parsed_padded :
    Decimal.writable (-7) = true ∧ Blank [' '] ∧ Written (-7) ('-' :: padded 2 7) ∧
      parseVal (text (([' '] : Text) ++ ('-' : CodePoint) :: padded 2 7 ++ [])) =
        some (.ok (int (-7))) ∧
      (∃ shown, (int (-7)).display = .ok shown ∧
        parseVal (text (([' '] : Text) ++ shown ++ [])) = some (.ok (int (-7)))) ∧
      TextOf (char '٣') ['٣'] ∧ Digits ['٣'] ∧ Names ['٣'] (Text.trim ['٣']) (valueOf ['٣']) ∧
      parseVal (char '٣') = some (outcome ['٣'] (valueOf ['٣'])) := by
  have hwritable : Decimal.writable (-7) = true := Decimal.writable_of_le (by decide)
  have hblank : Blank [' '] := List.forall_mem_singleton.mpr rfl
  have hnil : Blank [] := by simp [Blank]
  have hwritten : Written (-7) ('-' :: padded 2 7) := .negative (n := 7) (by decide)
  have htext : TextOf (char '٣') ['٣'] := .char _
  have hdigits : Digits ['٣'] := ⟨List.cons_ne_nil _ _, List.forall_mem_singleton.mpr rfl⟩
  have hnames : Names ['٣'] (Text.trim ['٣']) (valueOf ['٣']) := .bare
  obtain ⟨hdisplayed, hparsed, hread⟩ := integers_parsed
  obtain ⟨shown, hshown, haround⟩ := hdisplayed (-7) hwritable
  exact ⟨hwritable, hblank, hwritten, hparsed _ _ _ _ hwritten hblank hnil,
    ⟨shown, hshown, haround _ _ hblank hnil⟩, htext, hdigits, hnames,
    (hread _ _ htext).2.2 _ _ hdigits hnames⟩

example : parseVal (text ['1', '_', '0']) = some (.ok unit) := rfl

end ModuleScript.Numerals
