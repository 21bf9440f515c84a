import ModuleScript.Value.Operators

/-!
# Division of integers

The operators `/` and `%` on integers yield the one quotient and the one remainder of the division
that truncates toward zero, for integers of any size and sign. Only a divisor of zero is refused.
-/

set_option autoImplicit false

namespace ModuleScript.Division

open Value

/-- The quotient and the remainder of a division that truncates toward zero: the remainder is
smaller than the divisor and does not have the sign opposite to the dividend's. -/
structure Truncates (a b q r : Int) : Prop where
  whole : a = q * b + r
  small : r.natAbs < b.natAbs
  sign : r = 0 ∨ r.sign = a.sign

variable {a b q r : Int}

/-- The quotient of the absolute values with a sign is the one that truncates. -/
theorem quotient_eq_tdiv (a b : Int) : Number.quotient a b = a.tdiv b := by
  have hneg : ∀ n : Nat, Int.negSucc n < 0 := Int.negSucc_lt_zero
  have hnat : ∀ n : Nat, ¬ Int.ofNat n < 0 := fun n => Int.not_lt.mpr (Int.natCast_nonneg n)
  unfold Number.quotient
  dsimp only
  cases a with
  | ofNat m =>
    cases b with
    | ofNat n =>
      rw [if_pos (by rw [eq_false (hnat m), eq_false (hnat n)])]
      rfl
    | negSucc n =>
      rw [if_neg (by rw [eq_false (hnat m), eq_true (hneg n)]; exact false_ne_true)]
      rfl
  | negSucc m =>
    cases b with
    | ofNat n =>
      rw [if_neg (by rw [eq_false (hnat n), eq_true (hneg m)]; exact true_ne_false)]
      rfl
    | negSucc n =>
      rw [if_pos (by rw [eq_true (hneg m), eq_true (hneg n)])]
      rfl

theorem remainder_eq_tmod (a b : Int) : a - b * Number.quotient a b = a.tmod b := by
  rw [quotient_eq_tdiv, Int.tmod_def]

theorem truncates_tdiv (a : Int) (hb : b ≠ 0) : Truncates a b (a.tdiv b) (a.tmod b) where
  whole := (Int.tdiv_mul_add_tmod a b).symm
  small := by
    rw [Int.natAbs_tmod]
    exact Nat.mod_lt _ (Int.natAbs_pos.mpr hb)
  sign := by
    by_cases hdvd : b ∣ a
    · exact .inl (Int.tmod_eq_zero_of_dvd hdvd)
    · right
      rw [Int.sign_tmod, if_neg hdvd]

theorem Truncates.divisor_ne_zero (h : Truncates a b q r) : b ≠ 0 := by
  rintro rfl
  exact Nat.not_lt_zero _ h.small

theorem Truncates.nonneg (h : Truncates a b q r) (ha : 0 ≤ a) : 0 ≤ r := by
  rcases h.sign with hr | hr
  · omega
  · exact Int.sign_nonneg_iff.mp (hr ▸ Int.sign_nonneg_iff.mpr ha)

theorem Truncates.nonpos (h : Truncates a b q r) (ha : a ≤ 0) : r ≤ 0 := by
  rcases h.sign with hr | hr
  · omega
  · exact Int.sign_nonpos_iff.mp (hr ▸ Int.sign_nonpos_iff.mpr ha)

/-- No other division satisfies the law. -/
theorem Truncates.unique (h : Truncates a b q r) : q = a.tdiv b ∧ r = a.tmod b := by
  have hb := h.divisor_ne_zero
  have hsmall := h.small
  have hwhole : r + b * q = a := by
    rw [h.whole, Int.mul_comm, Int.add_comm]
  have hunique : a.tdiv b = q ∧ a.tmod b = r := by
    rcases Int.le_total 0 a with ha | ha
    · have hr := h.nonneg ha
      exact (Int.tdiv_tmod_unique ha hb).mpr ⟨hwhole, hr, by omega⟩
    · have hr := h.nonpos ha
      exact (Int.tdiv_tmod_unique' ha hb).mpr ⟨hwhole, by omega, hr⟩
  exact ⟨hunique.1.symm, hunique.2.symm⟩

theorem divide_int (a : Int) (hb : b ≠ 0) : divide (int a) (int b) = .ok (int (a.tdiv b)) := by
  have hzero : (Number.int b).isZero = false := by simp [Number.isZero, hb]
  unfold divide int
  dsimp only
  rw [hzero, ← quotient_eq_tdiv]
  rfl

theorem modulo_int (a : Int) (hb : b ≠ 0) : modulo (int a) (int b) = .ok (int (a.tmod b)) := by
  unfold modulo int
  dsimp only
  rw [if_neg hb, remainder_eq_tmod]

/-- The operation is refused with an error of division by zero. -/
def Refused (x : Except Failure Value) : Prop :=
  ∃ r, x = .error (.report r) ∧ r.kind = .divisionByZero

/-- Dividing integers by zero is refused. Otherwise there is a quotient and a remainder, rounded
toward zero, and they are the only integers that satisfy the law of division. -/
theorem integers_divided (a b : Int) :
    if b = 0 then Refused (divide (int a) (int b)) ∧ Refused (modulo (int a) (int b))
    else ∃ q r, divide (int a) (int b) = .ok (int q) ∧ modulo (int a) (int b) = .ok (int r) ∧
      q.natAbs = a.natAbs / b.natAbs ∧ ∀ q' r', Truncates a b q' r' ↔ q' = q ∧ r' = r := by
  split
  case isTrue hb =>
    subst hb
    exact ⟨⟨_, rfl, rfl⟩, ⟨_, rfl, rfl⟩⟩
  case isFalse hb =>
    refine ⟨a.tdiv b, a.tmod b, divide_int a hb, modulo_int a hb, Int.natAbs_tdiv a b, ?_⟩
    intro q' r'
    constructor
    · exact Truncates.unique
    · rintro ⟨rfl, rfl⟩
      exact truncates_tdiv a hb

example : divide (int (-7)) (int 2) = .ok (int (-3)) ∧ modulo (int (-7)) (int 2) = .ok (int (-1)) :=
  ⟨rfl, rfl⟩

end ModuleScript.Division
