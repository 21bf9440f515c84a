import Mathlib.Data.Int.Order.Basic
import Mathlib.Data.List.Lex
import Mathlib.Order.Fin.Basic
import ModuleScript.Value.Operators

/-!
# Comparison of values

The operators `<`, `>` and `==` agree with each other. They order the integers by size, chars by
their numbers and texts as a dictionary does, and everything made of these, truth values, the unit
and lists is equal to itself only. Values of different kinds are never equal, and asking which comes
first is refused.
-/

set_option autoImplicit false

namespace ModuleScript.Comparison

open Value

/-! ## Orders -/

/-- The comparison yields true. -/
def Holds (op : BinaryOp) (v w : Value) : Prop := binary op v w = .ok (bool true)

/-- One of three is true and the two others are not. -/
def ExactlyOne (p q r : Prop) : Prop := (p ∧ ¬ q ∧ ¬ r) ∨ (¬ p ∧ q ∧ ¬ r) ∨ (¬ p ∧ ¬ q ∧ r)

/-- Comparison orders the values that stand for the elements of a type, and answers for every two of
them. -/
structure Orders {α : Type} (f : α → Value) : Prop where
  answered : ∀ op ∈ [BinaryOp.less, .greater, .equal], ∀ a b, ∃ p,
    binary op (f a) (f b) = .ok (bool p)
  trichotomy : ∀ a b, ExactlyOne (Holds .less (f a) (f b)) (Holds .equal (f a) (f b))
    (Holds .less (f b) (f a))
  greater_iff : ∀ a b, Holds .greater (f a) (f b) ↔ Holds .less (f b) (f a)
  trans : ∀ a b c, Holds .less (f a) (f b) → Holds .less (f b) (f c) → Holds .less (f a) (f c)

/-- The values are compared as what they stand for. -/
structure Represents {α : Type} [LinearOrder α] (f : α → Value) (less : α → α → Bool) : Prop where
  before : ∀ a b, before? (f a) (f b) = some (less a b)
  less_iff : ∀ a b, less a b = true ↔ a < b
  same_iff : ∀ a b, (f a).same (f b) = true ↔ a = b

theorem holds_less_iff {v w : Value} {p : Bool} (h : before? v w = some p) :
    Holds .less v w ↔ p = true := by
  unfold Holds
  simp [binary, lessThan, h]

theorem holds_greater_iff {v w : Value} {p : Bool} (h : before? v w = some p) :
    Holds .greater w v ↔ p = true := by
  unfold Holds
  simp [binary, greaterThan, h]

theorem holds_equal_iff {v w : Value} : Holds .equal v w ↔ v.same w = true := by
  unfold Holds
  simp [binary]

theorem exactlyOne_of_linearOrder {α : Type} [LinearOrder α] (a b : α) :
    ExactlyOne (a < b) (a = b) (b < a) := by
  rcases lt_trichotomy a b with hlt | heq | hgt
  · exact .inl ⟨hlt, hlt.ne, hlt.not_gt⟩
  · exact .inr (.inl ⟨heq.not_lt, heq, heq.not_gt⟩)
  · exact .inr (.inr ⟨hgt.not_gt, hgt.ne', hgt⟩)

section Represents

variable {α : Type} [LinearOrder α] {f : α → Value} {less : α → α → Bool}

theorem Represents.holds_less (h : Represents f less) (a b : α) :
    Holds .less (f a) (f b) ↔ a < b := by
  rw [holds_less_iff (h.before a b), h.less_iff]

theorem Represents.holds_greater (h : Represents f less) (a b : α) :
    Holds .greater (f a) (f b) ↔ b < a := by
  rw [holds_greater_iff (h.before b a), h.less_iff]

theorem Represents.holds_equal (h : Represents f less) (a b : α) :
    Holds .equal (f a) (f b) ↔ a = b := by
  rw [holds_equal_iff, h.same_iff]

theorem Represents.orders (h : Represents f less) : Orders f where
  answered := by
    intro op hop a b
    simp only [List.mem_cons, List.not_mem_nil, or_false] at hop
    rcases hop with rfl | rfl | rfl
    · exact ⟨less a b, by simp [binary, lessThan, h.before]⟩
    · exact ⟨less b a, by simp [binary, greaterThan, h.before]⟩
    · exact ⟨_, rfl⟩
  trichotomy := by
    intro a b
    rw [h.holds_less, h.holds_equal, h.holds_less]
    exact exactlyOne_of_linearOrder a b
  greater_iff := by
    intro a b
    rw [h.holds_greater, h.holds_less]
  trans := by
    intro a b c hab hbc
    rw [h.holds_less] at hab hbc ⊢
    exact hab.trans hbc

end Represents

/-! ## Integers and chars -/

theorem compare?_int (i j : Int) : (Number.int i).compare? (.int j) = some (compare i j) := rfl

theorem same_int (i j : Int) : (int i).same (int j) = true ↔ i = j := by
  change (Number.int i).same (.int j) = true ↔ i = j
  unfold Number.same
  rw [compare?_int]
  simp

theorem represents_int : Represents int fun i j => (Number.int i).less (.int j) where
  before _ _ := rfl
  less_iff i j := by
    unfold Number.less
    rw [compare?_int]
    simp [compare_lt_iff_lt]
  same_iff := same_int

theorem same_char (c d : CodePoint) : (char c).same (char d) = true ↔ c = d := beq_iff_eq

theorem represents_char : Represents char fun c d => c.val < d.val where
  before _ _ := rfl
  less_iff _ _ := decide_eq_true_iff
  same_iff := same_char

theorem same_bool (b c : Bool) : (bool b).same (bool c) = true ↔ b = c := beq_iff_eq

/-! ## Texts -/

/-- The order of a dictionary: a proper beginning comes first, and otherwise what is smaller at the
first difference. -/
inductive Lexicographic : Text → Text → Prop where
  | beginning {s t : Text} {c : CodePoint} : Lexicographic s (s ++ c :: t)
  | difference {s t u : Text} {a b : CodePoint} : a.val < b.val →
      Lexicographic (s ++ a :: t) (s ++ b :: u)

theorem less_cons {a b : CodePoint} {s t : Text} :
    Text.less (a :: s) (b :: t) = true ↔ a < b ∨ a = b ∧ Text.less s t = true := by
  simp [Text.less]

theorem less_iff_lt (s t : Text) : Text.less s t = true ↔ s < t := by
  induction s generalizing t with
  | nil =>
    cases t with
    | nil => simp [Text.less]
    | cons b t => simp [Text.less]
  | cons a s ih =>
    cases t with
    | nil => simp [Text.less]
    | cons b t => rw [less_cons, ih, List.cons_lt_cons_iff]

theorem less_append (p s t : Text) : Text.less (p ++ s) (p ++ t) = Text.less s t := by
  induction p with
  | nil => rfl
  | cons c p ih => simp [Text.less, ih]

theorem Lexicographic.cons {s t : Text} (c : CodePoint) (h : Lexicographic s t) :
    Lexicographic (c :: s) (c :: t) := by
  cases h with
  | beginning => exact .beginning (s := c :: s)
  | @difference s _ _ _ _ hab => exact .difference (s := c :: s) hab

theorem less_iff_lexicographic (s t : Text) : Text.less s t = true ↔ Lexicographic s t := by
  constructor
  · intro h
    induction s generalizing t with
    | nil =>
      cases t with
      | nil => cases h
      | cons b t => exact .beginning (s := [])
    | cons a s ih =>
      cases t with
      | nil => cases h
      | cons b t =>
        rcases less_cons.mp h with hab | ⟨rfl, hst⟩
        · exact .difference (s := []) hab
        · exact (ih t hst).cons a
  · intro h
    cases h with
    | @beginning s t c =>
      have happend := less_append s [] (c :: t)
      rw [List.append_nil] at happend
      rw [happend]
      rfl
    | difference hab =>
      rw [less_append]
      exact less_cons.mpr (.inl hab)

theorem same_text (s t : Text) : (text s).same (text t) = true ↔ s = t := beq_iff_eq

theorem represents_text : Represents text Text.less where
  before _ _ := rfl
  less_iff := less_iff_lt
  same_iff := same_text

/-! ## Equality -/

/-- Integers, chars, texts, truth values, the unit and lists of these, at any depth. -/
inductive Plain : Value → Prop where
  | int (i : Int) : Plain (int i)
  | char (c : CodePoint) : Plain (char c)
  | text (t : Text) : Plain (text t)
  | bool (b : Bool) : Plain (bool b)
  | unit : Plain unit
  | list {vs : List Value} : (∀ v ∈ vs, Plain v) → Plain (list vs)

variable {v w : Value} {vs ws : List Value}

theorem sameItems_self (h : ∀ v ∈ vs, v.same v = true) : sameItems vs vs = true := by
  induction vs with
  | nil => rfl
  | cons v vs ih =>
    have hvs := ih fun u hu => h u (.tail _ hu)
    exact Bool.and_eq_true_iff.mpr ⟨h v (.head _), hvs⟩

theorem Plain.same_self (hv : Plain v) : v.same v = true := by
  induction hv with
  | int i => exact (same_int i i).mpr rfl
  | char c => exact (same_char c c).mpr rfl
  | text t => exact (same_text t t).mpr rfl
  | bool b => exact (same_bool b b).mpr rfl
  | unit => rfl
  | list _ ih => exact sameItems_self ih

theorem eq_of_sameItems (hws : ∀ w ∈ ws, Plain w)
    (heq : ∀ v ∈ vs, ∀ w, Plain w → v.same w = true → v = w) (h : sameItems vs ws = true) :
    vs = ws := by
  induction vs generalizing ws with
  | nil =>
    cases ws with
    | nil => rfl
    | cons w ws => cases h
  | cons v vs ih =>
    cases ws with
    | nil => cases h
    | cons w ws =>
      obtain ⟨hfirst, hrest⟩ := Bool.and_eq_true_iff.mp h
      have hv := heq v (.head _) w (hws w (.head _)) hfirst
      have hvs := ih (fun u hu => hws u (.tail _ hu)) (fun u hu => heq u (.tail _ hu)) hrest
      rw [hv, hvs]

theorem Plain.eq_of_same (hv : Plain v) (hw : Plain w) (h : v.same w = true) : v = w := by
  induction hv generalizing w with
  | int i =>
    cases hw with
    | int j => rw [(same_int i j).mp h]
    | _ => cases h
  | char c =>
    cases hw with
    | char d => rw [(same_char c d).mp h]
    | _ => cases h
  | text s =>
    cases hw with
    | text t => rw [(same_text s t).mp h]
    | _ => cases h
  | bool b =>
    cases hw with
    | bool c => rw [(same_bool b c).mp h]
    | _ => cases h
  | unit =>
    cases hw with
    | unit => rfl
    | _ => cases h
  | list _ ih =>
    cases hw with
    | list hws => rw [eq_of_sameItems hws (fun u hu x hx => ih u hu hx) h]
    | _ => cases h

theorem Plain.holds_equal (hv : Plain v) (hw : Plain w) : Holds .equal v w ↔ v = w := by
  rw [holds_equal_iff]
  constructor
  · exact hv.eq_of_same hw
  · rintro rfl
    exact hv.same_self

theorem equivalence_equal :
    Equivalence fun v w : {v // Plain v} => Holds .equal v.1 w.1 where
  refl v := (v.2.holds_equal v.2).mpr rfl
  symm := by
    intro v w h
    exact (w.2.holds_equal v.2).mpr ((v.2.holds_equal w.2).mp h).symm
  trans := by
    intro u v w huv hvw
    have hequal := ((u.2.holds_equal v.2).mp huv).trans ((v.2.holds_equal w.2).mp hvw)
    exact (u.2.holds_equal w.2).mpr hequal

/-! ## Values of different kinds -/

/-- The operator is refused, with the names of the operands' types. -/
def Mismatched (op : BinaryOp) (v w : Value) : Prop :=
  ∃ r, binary op v w = .error (.report r) ∧ r.kind = .typeMismatch ∧
    r.message = "Operator '" ++ op.text ++ "' is not defined for (" ++
      (v.typeName ++ ", " ++ w.typeName) ++ ")"

theorem same_of_typeName_ne (h : v.typeName ≠ w.typeName) : v.same w = false := by
  cases v <;> cases w <;> first
    | rfl
    | exact absurd rfl h

theorem before?_of_typeName_ne (h : v.typeName ≠ w.typeName) : before? v w = none := by
  cases v <;> cases w <;> first
    | rfl
    | exact absurd rfl h

theorem lessThan_mismatched (h : before? v w = none) : Mismatched .less v w := by
  have hless : binary .less v w = undefined .less v w := by
    simp only [binary, lessThan, h]
  exact ⟨_, hless, rfl, rfl⟩

theorem greaterThan_mismatched (h : before? w v = none) : Mismatched .greater v w := by
  have hgreater : binary .greater v w = undefined .greater v w := by
    simp only [binary, greaterThan, h]
  exact ⟨_, hgreater, rfl, rfl⟩

/-- Comparison orders integers, chars and texts, texts as a dictionary does. Equality is an
equivalence of plain values, and each of them is equal to itself only. Values of different kinds are
not equal and cannot be ordered. -/
theorem comparisons_consistent :
    (Orders int ∧ Orders char ∧ Orders text) ∧
      ((∀ i j, Holds .less (int i) (int j) ↔ i < j) ∧
        (∀ c d, Holds .less (char c) (char d) ↔ c < d) ∧
        ∀ s t, Holds .less (text s) (text t) ↔ Lexicographic s t) ∧
      ((Equivalence fun v w : {v // Plain v} => Holds .equal v.1 w.1) ∧
        ∀ v w, Plain v → Plain w → (Holds .equal v w ↔ v = w)) ∧
      ∀ v w, v.typeName ≠ w.typeName →
        binary .equal v w = .ok (bool false) ∧ Mismatched .less v w ∧ Mismatched .greater v w := by
  refine ⟨⟨represents_int.orders, represents_char.orders, represents_text.orders⟩,
    ⟨represents_int.holds_less, represents_char.holds_less, ?_⟩,
    ⟨equivalence_equal, fun v w hv hw => hv.holds_equal hw⟩, ?_⟩
  · intro s t
    rw [represents_text.holds_less, ← less_iff_lt, less_iff_lexicographic]
  · intro v w h
    have hsame : binary .equal v w = .ok (bool false) := by
      rw [binary, same_of_typeName_ne h]
    exact ⟨hsame, lessThan_mismatched (before?_of_typeName_ne h),
      greaterThan_mismatched (before?_of_typeName_ne h.symm)⟩

theorem comparisons_consistent_list :
    Plain (list [int 1, text "b"]) ∧ (list [int 1, text "b"]).typeName ≠ (text "b").typeName ∧
      Holds .equal (list [int 1, text "b"]) (list [int 1, text "b"]) ∧
      Mismatched .less (list [int 1, text "b"]) (text "b") := by
  have hplain : Plain (list [int 1, text "b"]) := by
    refine .list fun v hv => ?_
    simp only [List.mem_cons, List.not_mem_nil, or_false] at hv
    rcases hv with rfl | rfl
    · exact .int 1
    · exact .text "b"
  have hname : (list [int 1, text "b"]).typeName ≠ (text "b").typeName := by decide
  obtain ⟨-, -, ⟨-, hequal⟩, hdifferent⟩ := comparisons_consistent
  exact ⟨hplain, hname, (hequal _ _ hplain hplain).mpr rfl, (hdifferent _ _ hname).2.1⟩

example : binary .less (text "ab") (text "b") = .ok (bool true) := rfl

end ModuleScript.Comparison
