import ModuleScript.Value.Natives

/-!
# Sequences in normal form

A list made of chars only, and at least one, has two representations: the list and the text of its
chars. In normal form it is the text, at any depth. Two sequences in normal form that have the same
elements, and at least one, are the same value.
-/

set_option autoImplicit false

namespace ModuleScript.Value

/-- At least one char and nothing else. -/
def AllChars (vs : List Value) : Prop := vs ≠ [] ∧ ∀ v ∈ vs, ∃ c, v = .char c

/-- A value with no list in it that could be a text, at any depth. -/
inductive Normal : Value → Prop where
  | atom {v : Value} : (∀ vs, v ≠ .list vs) → Normal v
  | list {vs : List Value} : ¬ AllChars vs → (∀ v ∈ vs, Normal v) → Normal (.list vs)

variable {v w : Value} {vs ws : List Value}

/-! ## Lists and their chars -/

theorem chars?_eq_none (h : ∃ v ∈ vs, ∀ c, v ≠ .char c) : chars? vs = none := by
  obtain ⟨v, hv, hc⟩ := h
  induction vs with
  | nil => cases hv
  | cons u vs ih =>
    cases u with
    | char d =>
      have hrest : v ∈ vs := by
        rcases List.mem_cons.mp hv with rfl | hv
        · exact absurd rfl (hc d)
        · exact hv
      unfold chars?
      rw [ih hrest]
      rfl
    | _ => rfl

theorem chars?_map_char (t : Text) : chars? (t.map .char) = some t := by
  induction t with
  | nil => rfl
  | cons c t ih => simp [chars?, ih]

theorem ofItems_eq_list (h : vs ≠ [] → ∃ v ∈ vs, ∀ c, v ≠ .char c) : ofItems vs = .list vs := by
  cases vs with
  | nil => rfl
  | cons v vs =>
    unfold ofItems
    rw [chars?_eq_none (h (List.cons_ne_nil v vs))]

theorem ofItems_eq_list_of_not_allChars (h : ¬ AllChars vs) : ofItems vs = .list vs := by
  refine ofItems_eq_list fun hne => ?_
  simpa [AllChars, hne] using h

theorem ofItems_map_char {t : Text} (ht : t ≠ []) : ofItems (t.map .char) = .text t := by
  unfold ofItems
  rw [chars?_map_char]
  cases t with
  | nil => exact absurd rfl ht
  | cons c t => rfl

theorem allChars_map_char {t : Text} (ht : t ≠ []) : AllChars (t.map .char) := by
  constructor
  · simpa using ht
  · intro v hv
    obtain ⟨c, -, rfl⟩ := List.mem_map.mp hv
    exact ⟨c, rfl⟩

theorem exists_text (h : ∀ v ∈ vs, ∃ c, v = .char c) : ∃ t : Text, vs = t.map .char := by
  induction vs with
  | nil => exact ⟨[], rfl⟩
  | cons v vs ih =>
    obtain ⟨c, rfl⟩ := h v (.head _)
    obtain ⟨t, rfl⟩ := ih fun u hu => h u (.tail _ hu)
    exact ⟨c :: t, rfl⟩

/-! ## Normal values -/

theorem Normal.item (h : Normal (.list vs)) (hv : v ∈ vs) : Normal v := by
  cases h with
  | atom h => exact absurd rfl (h vs)
  | list _ hall => exact hall v hv

theorem Normal.not_allChars (h : Normal (.list vs)) : ¬ AllChars vs := by
  cases h with
  | atom h => exact absurd rfl (h vs)
  | list hne _ => exact hne

theorem normal_ofItems (h : ∀ v ∈ vs, Normal v) : Normal (ofItems vs) := by
  unfold ofItems
  split
  · exact .atom fun _ he => by cases he
  · rename_i hchars
    refine .list (fun hall => ?_) h
    obtain ⟨hne, hall⟩ := hall
    obtain ⟨t, rfl⟩ := exists_text hall
    rw [chars?_map_char] at hchars
    cases t with
    | nil => exact hne rfl
    | cons c t => exact hchars c t rfl

theorem normal_reverse (h : Normal (.list vs)) : Normal (.list vs.reverse) := by
  refine .list (fun hall => h.not_allChars ?_) fun v hv => h.item (List.mem_reverse.mp hv)
  obtain ⟨hne, hchars⟩ := hall
  exact ⟨by simpa using hne, fun v hv => hchars v (List.mem_reverse.mpr hv)⟩

/-- A value in normal form is what its elements make. -/
theorem items?_ofItems (vs : List Value) : (ofItems vs).items? = some vs := by
  by_cases hall : AllChars vs
  · obtain ⟨t, rfl⟩ := exists_text hall.2
    have hne : t ≠ [] := fun ht => hall.1 (by rw [ht]; rfl)
    rw [ofItems_map_char hne]
    rfl
  · rw [ofItems_eq_list_of_not_allChars hall]
    rfl

theorem last_ofItems (vs : List Value) : (ofItems vs).last = .ok (vs.getLast?.getD .unit) := by
  unfold last expectItems
  rw [items?_ofItems]
  rfl

theorem Normal.ofItems_items (h : Normal v) (hi : v.items? = some vs) (hne : vs ≠ []) :
    ofItems vs = v := by
  cases v with
  | text t =>
    cases hi
    exact ofItems_map_char (by simpa using hne)
  | list us =>
    cases hi
    exact ofItems_eq_list_of_not_allChars h.not_allChars
  | _ => cases hi

/-- Sequences in normal form with the same elements, and at least one, are the same. -/
theorem Normal.eq_of_items (hv : Normal v) (hw : Normal w) (hvs : v.items? = some vs)
    (hws : w.items? = some vs) (hne : vs ≠ []) : v = w := by
  rw [← hv.ofItems_items hvs hne, ← hw.ofItems_items hws hne]

/-! ## Equal elements -/

theorem char_of_same {c : CodePoint} (h : Value.same (.char c) v = true) : v = .char c := by
  cases v with
  | char d =>
    rw [Value.same, beq_iff_eq] at h
    rw [h]
  | _ => cases h

theorem char_of_same_right {c : CodePoint} (h : v.same (.char c) = true) : v = .char c := by
  cases v with
  | char d =>
    rw [Value.same, beq_iff_eq] at h
    rw [h]
  | _ => cases h

theorem eq_of_sameItems_chars {t : Text} (h : sameItems (t.map .char) vs = true) :
    vs = t.map .char := by
  induction t generalizing vs with
  | nil =>
    cases vs with
    | nil => rfl
    | cons v vs => cases h
  | cons c t ih =>
    cases vs with
    | nil => cases h
    | cons v vs =>
      obtain ⟨hv, hvs⟩ := Bool.and_eq_true_iff.mp h
      rw [char_of_same hv, ih hvs]
      rfl

theorem eq_of_sameItems_chars_right {t : Text} (h : sameItems vs (t.map .char) = true) :
    vs = t.map .char := by
  induction t generalizing vs with
  | nil =>
    cases vs with
    | nil => rfl
    | cons v vs => cases h
  | cons c t ih =>
    cases vs with
    | nil => cases h
    | cons v vs =>
      obtain ⟨hv, hvs⟩ := Bool.and_eq_true_iff.mp h
      rw [char_of_same_right hv, ih hvs]
      rfl

/-- Sequences in normal form are equal when their elements are, if there are any. -/
theorem Normal.same_of_sameItems (hv : Normal v) (hw : Normal w) (hvs : v.items? = some vs)
    (hws : w.items? = some ws) (hne : vs ≠ []) (h : sameItems vs ws = true) :
    v.same w = true := by
  cases v with
  | text t =>
    cases hvs
    have hws' : w.items? = some (t.map .char) := by rw [hws, eq_of_sameItems_chars h]
    rw [← hv.eq_of_items hw rfl hws' hne]
    simp [Value.same]
  | list us =>
    cases hvs
    cases w with
    | text t =>
      cases hws
      obtain rfl := eq_of_sameItems_chars_right h
      have ht : t ≠ [] := by simpa using hne
      exact absurd (allChars_map_char ht) hv.not_allChars
    | list us' =>
      cases hws
      exact h
    | _ => cases hws
  | _ => cases hvs

end ModuleScript.Value
