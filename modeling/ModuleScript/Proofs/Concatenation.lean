import ModuleScript.Proofs.Sequences

/-!
# Sums of lists

The operator `+` looks at how its operands are represented before it looks at what they are. Lists
of which both or neither are texts are put together element by element, and the sum is the value of
all their elements. Where one of them is a text and the other is not, the sum is the text of what
both display.
-/

set_option autoImplicit false

namespace ModuleScript.Concatenation

open Value

variable {xs ys zs : List Value}

/-! ## Representations -/

/-- Both lists are texts, or neither is. -/
def Alike (xs ys : List Value) : Prop := AllChars xs ↔ AllChars ys

theorem exists_text_of_allChars (h : AllChars xs) :
    ∃ t : Text, xs = t.map .char ∧ ofItems xs = .text t := by
  obtain ⟨hne, hchars⟩ := h
  obtain ⟨t, rfl⟩ := exists_text hchars
  exact ⟨t, rfl, ofItems_map_char (by simpa using hne)⟩

theorem not_allChars_nil : ¬ AllChars [] := fun h => h.1 rfl

theorem allChars_append (hxs : AllChars xs) (hys : AllChars ys) : AllChars (xs ++ ys) := by
  refine ⟨by simp [hxs.1], fun v hv => ?_⟩
  rcases List.mem_append.mp hv with hv | hv
  · exact hxs.2 v hv
  · exact hys.2 v hv

theorem not_allChars_append (hxs : ¬ AllChars xs) (hys : ¬ AllChars ys) :
    ¬ AllChars (xs ++ ys) := by
  rintro ⟨hne, hchars⟩
  by_cases hx : xs = []
  · subst hx
    exact hys ⟨hne, hchars⟩
  · exact hxs ⟨hx, fun v hv => hchars v (List.mem_append_left ys hv)⟩

theorem Alike.append (h : Alike xs ys) : Alike xs (xs ++ ys) := by
  by_cases hxs : AllChars xs
  · exact iff_of_true hxs (allChars_append hxs (h.mp hxs))
  · exact iff_of_false hxs (not_allChars_append hxs fun hys => hxs (h.mpr hys))

/-! ## Sums -/

theorem add_of_alike (h : Alike xs ys) :
    (ofItems xs).add (ofItems ys) = .ok (ofItems (xs ++ ys)) := by
  by_cases hxs : AllChars xs
  · obtain ⟨s, rfl, hs⟩ := exists_text_of_allChars hxs
    obtain ⟨t, rfl, ht⟩ := exists_text_of_allChars (h.mp hxs)
    have hne : s ++ t ≠ [] := by simpa using (allChars_append hxs (h.mp hxs)).1
    rw [hs, ht, ← List.map_append, ofItems_map_char hne]
    rfl
  · have hys : ¬ AllChars ys := fun hys => hxs (h.mpr hys)
    rw [ofItems_eq_list_of_not_allChars hxs, ofItems_eq_list_of_not_allChars hys]
    rfl

theorem add_of_not_alike (h : ¬ Alike xs ys) :
    (ofItems xs).add (ofItems ys) = (ofItems xs).concat (ofItems ys) := by
  by_cases hxs : AllChars xs
  · obtain ⟨s, -, hs⟩ := exists_text_of_allChars hxs
    rw [hs]
    rfl
  · have hys : AllChars ys :=
      Classical.byContradiction fun hys => h (iff_of_false hxs hys)
    obtain ⟨t, -, ht⟩ := exists_text_of_allChars hys
    rw [ofItems_eq_list_of_not_allChars hxs, ht]
    rfl

theorem displays_of_concat {v w u : Value} (h : v.concat w = .ok u) :
    ∃ s t, v.display = .ok s ∧ w.display = .ok t ∧ u = .text (s ++ t) := by
  unfold concat at h
  cases hs : v.display with
  | error f =>
    rw [hs] at h
    cases h
  | ok s =>
    cases ht : w.display with
    | error f =>
      rw [hs, ht] at h
      cases h
    | ok t =>
      rw [hs, ht] at h
      cases h
      exact ⟨s, t, rfl, rfl, rfl⟩

theorem left_eq_nil (h : AllChars (xs ++ ys)) (hxs : ¬ AllChars xs) : xs = [] := by
  by_cases hne : xs = []
  · exact hne
  · exact absurd ⟨hne, fun v hv => h.2 v (List.mem_append_left ys hv)⟩ hxs

theorem right_eq_nil (h : AllChars (xs ++ ys)) (hys : ¬ AllChars ys) : ys = [] := by
  by_cases hne : ys = []
  · exact hne
  · exact absurd ⟨hne, fun v hv => h.2 v (List.mem_append_right xs hv)⟩ hys

theorem display_nil : (ofItems []).display = .ok (['[', ']'] : List CodePoint) := rfl

/-- Not even beside the empty list is a text put together element by element: the brackets of the
empty list are displayed. -/
theorem concat_ne_ofItems (h : ¬ Alike xs ys) :
    (ofItems xs).concat (ofItems ys) ≠ .ok (ofItems (xs ++ ys)) := by
  intro he
  obtain ⟨s, t, hs, ht, hst⟩ := displays_of_concat he
  by_cases hall : AllChars (xs ++ ys)
  · by_cases hxs : AllChars xs
    · obtain rfl := right_eq_nil hall fun hys => h (iff_of_true hxs hys)
      obtain ⟨r, rfl, hr⟩ := exists_text_of_allChars hxs
      rw [hr] at hs
      rw [List.append_nil, hr] at hst
      cases hs
      cases display_nil.symm.trans ht
      simp at hst
    · obtain rfl := left_eq_nil hall hxs
      obtain ⟨r, rfl, hr⟩ := exists_text_of_allChars hall
      rw [List.nil_append] at hr
      rw [hr] at ht
      rw [List.nil_append, hr] at hst
      cases ht
      cases display_nil.symm.trans hs
      have hlength := congrArg List.length (text.inj hst)
      simp only [List.length_append, List.length_cons] at hlength
      omega
  · rw [ofItems_eq_list_of_not_allChars hall] at hst
    cases hst

/-! ## The sum of two lists -/

/-- The sum of the values that two lists make is the value their concatenation makes if and only if
both or neither are texts; otherwise it is the text of what both display. So among texts, and among
lists that are not, `+` is associative, and the empty list is the identity of the latter. -/
theorem lists_added (xs ys zs : List Value) :
    ((ofItems xs).add (ofItems ys) = .ok (ofItems (xs ++ ys)) ↔ Alike xs ys) ∧
      (¬ Alike xs ys → (ofItems xs).add (ofItems ys) = Failure.lift do
        let s ← (ofItems xs).display
        let t ← (ofItems ys).display
        return .text (s ++ t)) ∧
      (Alike xs ys → Alike ys zs →
        ((ofItems xs).add (ofItems ys) >>= fun sum => sum.add (ofItems zs)) =
            .ok (ofItems (xs ++ ys ++ zs)) ∧
          ((ofItems ys).add (ofItems zs) >>= fun sum => (ofItems xs).add sum) =
            .ok (ofItems (xs ++ ys ++ zs))) ∧
      (¬ AllChars xs → (ofItems xs).add (ofItems []) = .ok (ofItems xs) ∧
        (ofItems []).add (ofItems xs) = .ok (ofItems xs)) := by
  refine ⟨⟨fun he => ?_, add_of_alike⟩, add_of_not_alike, fun hxy hyz => ?_, fun hxs => ?_⟩
  · by_cases h : Alike xs ys
    · exact h
    · exact absurd (add_of_not_alike h ▸ he) (concat_ne_ofItems h)
  · have hsum : Alike (xs ++ ys) zs := (hxy.append.symm.trans hxy).trans hyz
    constructor
    · rw [add_of_alike hxy]
      exact add_of_alike hsum
    · rw [add_of_alike hyz, List.append_assoc]
      exact add_of_alike (hxy.trans hyz.append)
  · have hnil : Alike xs [] := iff_of_false hxs not_allChars_nil
    constructor
    · rw [add_of_alike hnil, List.append_nil]
    · rw [add_of_alike hnil.symm, List.nil_append]

theorem lists_added_chars :
    Alike [.char 'a'] [.char 'b'] ∧ ¬ AllChars [.unit] ∧ ¬ Alike [.char 'a'] [.unit] ∧
      (ofItems [.char 'a']).add (ofItems [.char 'b']) =
        .ok (ofItems ([.char 'a'] ++ [.char 'b'])) ∧
      (ofItems [.unit]).add (ofItems []) = .ok (ofItems [.unit]) := by
  have hchar : ∀ c, AllChars [.char c] := fun c => allChars_map_char (t := [c]) (by simp)
  have hunit : ¬ AllChars [.unit] := fun h => by
    obtain ⟨c, hc⟩ := h.2 .unit (.head _)
    cases hc
  have halike : Alike [.char 'a'] [.char 'b'] := iff_of_true (hchar 'a') (hchar 'b')
  have hne : ¬ Alike [.char 'a'] [.unit] := fun h => hunit (h.mp (hchar 'a'))
  exact ⟨halike, hunit, hne, (lists_added [.char 'a'] [.char 'b'] []).1.mpr halike,
    ((lists_added [.unit] [] []).2.2.2 hunit).1⟩

/-- The list of a char and the list of a truth value are not put together: the first is a text. -/
theorem text_list_displayed :
    (ofItems [.char 'a']).add (ofItems [.bool true]) = .ok (.text "a[true]") ∧
      ofItems ([.char 'a'] ++ [.bool true]) = .list [.char 'a', .bool true] ∧
      ¬ ∀ xs ys, (ofItems xs).add (ofItems ys) = .ok (ofItems (xs ++ ys)) := by
  have hsum : (ofItems [.char 'a']).add (ofItems [.bool true]) = .ok (.text "a[true]") := by rfl
  refine ⟨hsum, rfl, fun h => ?_⟩
  have hlist := h [.char 'a'] [.bool true]
  rw [hsum] at hlist
  cases hlist

end ModuleScript.Concatenation
